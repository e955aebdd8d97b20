import CapabilityFlow.Toml.Scalar

/-!
# TOML documents

A document is read as sections, each a header with entries below it; the entries before the first
header are the document's own. `document?` adds them up to one table.
-/

namespace CapabilityFlow.Toml

/-! ## Keys -/

/-- The characters of names without quotes. -/
def isNameChar (c : Char) : Bool :=
  c.isAlphanum || c = '_' || c = '-'

/-- A name without dots, with the blanks around it. -/
def name : Reader String := fun s =>
  let s := dropBlanks s
  let result :=
    match s with
    | '"' :: _ => quotedText '"' s
    | '\x27' :: _ => quotedText '\x27' s
    | s =>
      match s.takeWhile isNameChar with
      | [] => none
      | cs => some (String.ofList cs, s.dropWhile isNameChar)
  result.map fun p => (p.1, dropBlanks p.2)

/-- The greatest depth to which keys and values nest. -/
def depthLimit : Nat := 80

/-- Names with dots between them. -/
def names : Nat → Reader (List String)
  | 0, _ => none
  | fuel + 1, s => do
    let (n, r) ← name s
    match r with
    | '.' :: after =>
      match names fuel after with
      | some (ns, r) => pure (n :: ns, r)
      | none => pure ([n], r)
    | r => pure ([n], r)

/-- A key; it has fewer names than the limit. -/
def key : Reader Key := fun s => do
  let (ns, r) ← names (s.length + 1) s
  if ns.length ≥ depthLimit then none
  pure (⟨ns.dropLast, ← ns.getLast?⟩, r)

/-! ## Values -/

mutual

/-- A value at a depth. -/
def value (depth : Nat) : Nat → Reader Item
  | 0, _ => none
  | fuel + 1, s =>
    match s with
    | '[' :: r => do
      if depth + 1 ≥ depthLimit then none
      let (vs, r) ← items (depth + 1) fuel r
      pure (.array vs, r)
    | '\x7b' :: r => do
      if depth + 1 ≥ depthLimit then none
      match dropBlanks r with
      | '\x7d' :: r => pure (.table .inline [], r)
      | r => do
        let (es, r) ← entries (depth + 1) fuel r
        pure (.table .inline (← Item.putAll es []), r)
    | s => scalar s

/-- The rest of an array. -/
def items (depth : Nat) : Nat → Reader (List Item)
  | 0, _ => none
  | fuel + 1, s =>
    match dropFiller s.length s with
    | ']' :: r => some ([], r)
    | s => do
      let (v, r) ← value depth fuel s
      match dropFiller r.length r with
      | ']' :: r => pure ([v], r)
      | ',' :: r => do
        let (vs, r) ← items depth fuel r
        pure (v :: vs, r)
      | _ => none

/-- The rest of an inline table that has an entry. -/
def entries (depth : Nat) : Nat → Reader (List (Key × Item))
  | 0, _ => none
  | fuel + 1, s => do
    let (e, r) ← entry depth fuel s
    match dropBlanks r with
    | '\x7d' :: r => pure ([e], r)
    | ',' :: r => do
      let (es, r) ← entries depth fuel r
      pure (e :: es, r)
    | _ => none

/-- A key with its value. -/
def entry (depth : Nat) : Nat → Reader (Key × Item)
  | 0, _ => none
  | fuel + 1, s => do
    let (k, r) ← key s
    let (v, r) ← value depth fuel (dropBlanks (← skip? '=' r))
    pure ((k, v), r)

end

/-! ## Sections -/

/-- A header with its entries. -/
structure Section where
  key : Key
  /-- Whether the header makes one more table of its name each time. -/
  repeats : Bool
  entries : List (Key × Item)

/-- What follows the marks that close a header. -/
def closeHeader? (repeats : Bool) (s : List Char) : Option (List Char) :=
  match s with
  | ']' :: r => if repeats then skip? ']' r else some r
  | _ => none

/-- The key of a header, and whether it repeats. -/
def header : Reader (Key × Bool)
  | '[' :: '[' :: r => do
    let (k, r) ← key r
    pure ((k, true), ← closeHeader? true r)
  | '[' :: r => do
    let (k, r) ← key r
    pure ((k, false), ← closeHeader? false r)
  | _ => none

/-- The entries up to the next header, and the sections from there on. -/
def sections : Nat → List Char → Option (List (Key × Item) × List Section)
  | 0, _ => none
  | fuel + 1, s =>
    match dropFiller s.length s with
    | [] => some ([], [])
    | '#' :: r => if r.all isTextual then some ([], []) else none
    | '[' :: r => do
      let ((k, repeats), r) ← header ('[' :: r)
      let (es, rest) ← sections fuel (← lineEnd? r)
      pure ([], ⟨k, repeats, es⟩ :: rest)
    | s => do
      let (e, r) ← entry 0 (2 * s.length) s
      let (es, rest) ← sections fuel (← lineEnd? r)
      pure (e :: es, rest)

/-- The table that a text writes, if it writes one. -/
def document? (text : String) : Option (Table Item) := do
  let cs := match text.toList with
    | '\uFEFF' :: r => r
    | cs => cs
  let (own, rest) ← sections (cs.length + 1) cs
  rest.foldlM (fun ms s => Item.addSection s.repeats s.key.parents s.key.name s.entries ms)
    (← Item.putAll own [])

end CapabilityFlow.Toml
