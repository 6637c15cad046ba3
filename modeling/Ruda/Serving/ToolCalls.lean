import Ruda.Serving.StopStrings

/-!
# Tool calls in XML

A translation of `xml_prefix` of `serving/tool_calls.rs`. `parse` and `print` are the JSON
library's reading and writing of a value; writing a string is translated. A `find` with the
slices before and after the place found is one `cut`.
-/

namespace Ruda.Serving

open Text

-- JSON

/-- `serde_json::Value`, with a number as it is written. -/
inductive Json
  | null
  | bool (value : Bool)
  | number (digits : Text)
  | string (value : Text)
  | array (elements : List Json)
  | object (fields : List (Text × Json))

namespace Json

def get (key : Text) : Json → Option Json
  | object fields => fields.lookup key
  | _ => none

def asStr : Json → Option Text
  | string value => some value
  | _ => none

def asArray : Json → Option (List Json)
  | array elements => some elements
  | _ => none

theorem sizeOf_lookup {fields : List (Text × Json)} {key : Text} {j : Json} (h : fields.lookup key = some j) :
    sizeOf j < sizeOf fields := by
  induction fields with
  | nil => cases h
  | cons field fields ih =>
    obtain ⟨name, value⟩ := field
    rw [List.lookup_cons] at h
    split at h
    · obtain rfl := Option.some.inj h
      simp only [List.cons.sizeOf_spec, Prod.mk.sizeOf_spec]
      omega
    · have := ih h
      simp only [List.cons.sizeOf_spec]
      omega

theorem sizeOf_element {schema list element : Json} {elements : List Json} {key : Text} (h : schema.get key = some list)
    (hl : list.asArray = some elements) (he : element ∈ elements) : sizeOf element < sizeOf schema := by
  have hin := List.sizeOf_lt_of_mem he
  cases schema with
  | object fields =>
    have hlist := sizeOf_lookup h
    cases list with
    | array elements' =>
      obtain rfl := Option.some.inj hl
      simp only [array.sizeOf_spec, object.sizeOf_spec] at hlist ⊢
      omega
    | _ => cases hl
  | _ => cases h

end Json

/-- The hexadecimal digit of a number below 16. -/
def hexDigit (n : Nat) : Char := Char.ofNat (if n < 10 then 48 + n else 87 + n)

/-- How a character stands in a JSON string. -/
def escapeChar (c : Char) : Text :=
  if c = '"' then ['\\', '"']
  else if c = '\\' then ['\\', '\\']
  else if c = '\n' then ['\\', 'n']
  else if c = '\r' then ['\\', 'r']
  else if c = '\t' then ['\\', 't']
  else if c = Char.ofNat 8 then ['\\', 'b']
  else if c = Char.ofNat 12 then ['\\', 'f']
  else if c.toNat < 32 then ['\\', 'u', '0', '0', hexDigit (c.toNat / 16), hexDigit (c.toNat % 16)]
  else [c]

def escape (s : Text) : Text := s.flatMap escapeChar

/-- `serde_json::to_string` of a string -/
def quote (s : Text) : Text := '"' :: (escape s ++ ['"'])

-- Text

/-- The Unicode property `White_Space`. -/
def isWhitespace (c : Char) : Bool :=
  let n := c.toNat
  (9 ≤ n && n ≤ 13) || n = 32 || n = 0x85 || n = 0xA0 || n = 0x1680 || (0x2000 ≤ n && n ≤ 0x200A) ||
    n = 0x2028 || n = 0x2029 || n = 0x202F || n = 0x205F || n = 0x3000

def trimStart (s : Text) : Text := s.dropWhile isWhitespace

def trim (s : Text) : Text := ((trimStart s).reverse.dropWhile isWhitespace).reverse

def stripPrefix? (p s : Text) : Option Text := if p.isPrefixOf s then some (s.drop p.length) else none

def stripSuffix? (p s : Text) : Option Text := if p.isSuffixOf s then some (s.take (s.length - p.length)) else none

/-- What is before and after the first `p`. -/
def cut (p : Text) : Text → Option (Text × Text)
  | [] => if p = [] then some ([], []) else none
  | c :: s =>
    if p.isPrefixOf (c :: s) then some ([], (c :: s).drop p.length)
    else (cut p s).map fun (before, after) => (c :: before, after)

def stripLeadingBreak (s : Text) : Text := ((stripPrefix? ['\r', '\n'] s).orElse fun _ => stripPrefix? ['\n'] s).getD s

def stripTrailingBreak (s : Text) : Text := ((stripSuffix? ['\r', '\n'] s).orElse fun _ => stripSuffix? ['\n'] s).getD s

def unpad (s : Text) : Text := stripTrailingBreak (stripLeadingBreak s)

/-- `entries.join(",")` -/
def joined : List Text → Text
  | [] => []
  | [entry] => entry
  | entry :: entries => entry ++ ',' :: joined entries

-- Schemas

inductive XmlError
  | undeclaredTool (name : Text)
  | noSchema (name : Text)
  | ambiguousString
  | ambiguousSchema
  | unsupportedSchema
  | unexpectedSuffix
  | noClosingFunction
  | duplicateParameter (key : Text)
  | unterminatedParameter
  | invalidJson
  deriving DecidableEq

def parameterSchema (tool : Json) (name : Text) : Res XmlError Json :=
  okOr ((((tool.get "function".toList).bind (·.get "parameters".toList)).bind (·.get "properties".toList)).bind (·.get name))
    (.noSchema name)

def toolName (tool : Json) : Option Text := ((tool.get "function".toList).bind (·.get "name".toList)).bind Json.asStr

/-- The declared type, if there is one. -/
def declaredType (schema : Json) : Option (Res XmlError Bool) :=
  match schema.get "type".toList with
  | some (.string kind) => some (.ok (kind = "string".toList))
  | some (.array kinds) =>
    if kinds.any fun kind => kind.asStr = some "string".toList then
      if kinds.any fun kind => ¬(kind.asStr = some "string".toList ∨ kind.asStr = some "null".toList) then
        some (.error (.err .ambiguousString))
      else some (.ok true)
    else some (.ok false)
  | _ => none

def notNull (variant : Json) : Bool := (variant.get "type".toList).bind Json.asStr ≠ some "null".toList

/-- All variants say the same. -/
def agreed (kinds : List Bool) : Res XmlError Bool :=
  match kinds.head? with
  | some first => if kinds.all (· = first) then .ok first else .error (.err .ambiguousSchema)
  | none => .error (.err .ambiguousSchema)

def variantsOf (schema : Json) : Option (List Json) :=
  ((schema.get "anyOf".toList).bind Json.asArray).or ((schema.get "oneOf".toList).bind Json.asArray)

theorem sizeOf_variant {schema variant : Json} {variants : List Json} (h : variantsOf schema = some variants)
    (hv : variant ∈ variants) : sizeOf variant < sizeOf schema := by
  rcases Option.or_eq_some_iff.mp h with h | ⟨-, h⟩
  all_goals
    obtain ⟨list, hlist, hl⟩ := Option.bind_eq_some_iff.mp h
    exact Json.sizeOf_element hlist hl hv

def stringParameter (schema : Json) : Res XmlError Bool :=
  match declaredType schema with
  | some answer => answer
  | none =>
    match h : variantsOf schema with
    | some variants => do
      let kinds ← (variants.attach.filter fun variant => notNull variant.val).mapM fun (variant : { v // v ∈ variants }) =>
        have : sizeOf variant.val < sizeOf schema := sizeOf_variant h variant.property
        stringParameter variant.val
      agreed kinds
    | none => .error (.err .unsupportedSchema)
termination_by sizeOf schema

-- The prefix of a call

section
variable (parse : Text → Option Json) (print : Json → Text)

/-- An object or an array is passed on as it is written. -/
def verbatim (schema : Json) : Bool :=
  (schema.get "type".toList).bind Json.asStr = some "object".toList ∨
    (schema.get "type".toList).bind Json.asStr = some "array".toList

/-- The value of a parameter that is no string. -/
def readValue (raw : Text) : Res XmlError Json :=
  if trim raw = "True".toList then .ok (.bool true)
  else if trim raw = "False".toList then .ok (.bool false)
  else okOr (parse (trim raw)) .invalidJson

/-- The JSON of a value, of which the rest is still to come unless it is `closed`. -/
def encode (schema : Json) (isString closed : Bool) (raw : Text) : Res XmlError Text :=
  if isString then .ok (if closed then quote raw else (quote raw).dropLast)
  else if closed then do
    let value ← readValue parse raw
    .ok (if verbatim schema then trimStart raw else print value)
  else .ok (if verbatim schema then trimStart raw else [])

def closeTag : Text := "</parameter>".toList

/-- What a call that cannot return an error does in one that can. -/
def liftXml {α : Type} : Res Empty α → Res XmlError α
  | .ok a => .ok a
  | .error .panic => .error .panic

/-- The text of a value that is not closed, up to what may be its closing tag. -/
def openRaw (body : Text) : Res Empty Text := do
  let stop ← safeTextEnd body [closeTag]
  let shown ← upTo body stop
  .ok (unpad shown)

/-- The loop over the parameters, with the JSON of those before. It takes a tag off the text
each time, so `fuel` bounds it; a loop that goes on counts as a panic. -/
def parameters (tool : Json) (complete : Bool) : (fuel : Nat) → (entries names : List Text) → Text → Res XmlError Text
  | 0, _, _, _ => .error .panic
  | fuel + 1, entries, names, rest =>
    match stripPrefix? "</function>".toList rest with
    | some trailing => if trim trailing ≠ [] then .error (.err .unexpectedSuffix) else .ok ('{' :: (joined entries ++ ['}']))
    | none =>
      match stripPrefix? "<parameter=".toList rest with
      | none => if complete then .error (.err .noClosingFunction) else .ok ('{' :: joined entries)
      | some parameter =>
        match cut ['>'] parameter with
        | none => .ok ('{' :: joined entries)
        | some (key, body) =>
          if key ∈ names then .error (.err (.duplicateParameter key))
          else do
            let schema ← parameterSchema tool key
            let isString ← stringParameter schema
            match cut closeTag body with
            | some (value, after) =>
              let encoded ← encode parse print schema isString true (unpad value)
              parameters tool complete fuel (entries ++ [quote key ++ ':' :: encoded]) (key :: names) (trimStart after)
            | none =>
              failIf (complete = true) .unterminatedParameter
              let raw ← liftXml (openRaw body)
              let encoded ← encode parse print schema isString false raw
              .ok ('{' :: joined (entries ++ [quote key ++ ':' :: encoded]))

def xmlPrefix (tools : List Json) (complete : Bool) (text : Text) : Res XmlError (Option (Text × Text)) :=
  match (stripPrefix? "<function=".toList (trimStart text)).bind (cut ['>']) with
  | none => .ok none
  | some (name, rest) => do
    let tool ← okOr (tools.find? fun tool => toolName tool = some name) (.undeclaredTool name)
    let args ← parameters parse print tool complete (rest.length + 1) [] [] (trimStart rest)
    .ok (some (name, args))

end

end Ruda.Serving
