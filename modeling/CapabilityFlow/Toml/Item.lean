import CapabilityFlow.Table

/-!
# What a TOML document holds

A document is a table of items. A table remembers how it came to be, for that decides what may
still be added to it: `Item.put` adds the value of a key, `Item.addSection` the table of a header.
-/

namespace CapabilityFlow.Toml

/-- How a table came to be. -/
inductive Origin where
  /-- By its own header. -/
  | header
  /-- As a table around the one of a header. -/
  | surrounding
  /-- By a dotted key. -/
  | dotted
  /-- As a value on one line, which is complete. -/
  | inline
deriving DecidableEq, Repr

/-- An item of a document. -/
inductive Item where
  | text (s : String)
  | integer (n : Int)
  | float
  | boolean (b : Bool)
  /-- A date, a time, or both. -/
  | moment
  | array (items : List Item)
  | table (origin : Origin) (members : List (String × Item))
  /-- The tables of headers that repeat; there is one at least. -/
  | tables (items : List (List (String × Item)))
deriving Inhabited, Repr

/-- A key with its dots: the names before the last, and the last. -/
structure Key where
  parents : List String
  name : String
deriving DecidableEq, Repr

namespace Item

/-- Adds the value of a key to a table. The tables around it are made where they are missing; one
that has a header of its own is not added to by dotted keys. -/
def put (parents : List String) (name : String) (v : Item) (ms : Table Item) :
    Option (Table Item) :=
  match parents with
  | [] => if ms.has name then none else some (ms ++ [(name, v)])
  | p :: rest =>
    match ms.get? p with
    | none => do pure (ms ++ [(p, .table .dotted (← put rest name v []))])
    | some (.table origin sub) =>
      if origin = .dotted || (origin = .surrounding && !rest.isEmpty) then do
        pure (ms.set p (.table origin (← put rest name v sub)))
      else none
    | some (.tables ts) =>
      match ts.getLast? with
      | some t => do
        if rest.isEmpty then none
        pure (ms.set p (.tables (ts.dropLast ++ [← put rest name v t])))
      | none => none
    | some _ => none

/-- Adds entries to a table, one after another. -/
def putAll (entries : List (Key × Item)) (ms : Table Item) : Option (Table Item) :=
  entries.foldlM (fun ms e => put e.1.parents e.1.name e.2 ms) ms

/-- The table of the header `name`, with its entries. A table has one header of its own. -/
def addTable (name : String) (entries : List (Key × Item)) (ms : Table Item) :
    Option (Table Item) :=
  match ms.get? name with
  | none => do pure (ms ++ [(name, .table .header (← putAll entries []))])
  | some (.table .surrounding sub) => do
    pure (ms.set name (.table .header (← putAll entries sub)))
  | some _ => none

/-- One more table of the repeating header `name`, with its entries. -/
def addRepeated (name : String) (entries : List (Key × Item)) (ms : Table Item) :
    Option (Table Item) :=
  match ms.get? name with
  | none => do pure (ms ++ [(name, .tables [← putAll entries []])])
  | some (.tables ts) => do pure (ms.set name (.tables (ts ++ [← putAll entries []])))
  | some _ => none

/-- Adds the section of a header. A name before the last stands for a table, or for the last one
of a repeating header. -/
def addSection (repeats : Bool) (parents : List String) (name : String)
    (entries : List (Key × Item)) (ms : Table Item) : Option (Table Item) :=
  match parents with
  | [] => if repeats then addRepeated name entries ms else addTable name entries ms
  | p :: rest =>
    match ms.get? p with
    | none => do
      pure (ms ++ [(p, .table .surrounding (← addSection repeats rest name entries []))])
    | some (.table origin sub) =>
      if origin = .inline then none
      else do pure (ms.set p (.table origin (← addSection repeats rest name entries sub)))
    | some (.tables ts) =>
      match ts.getLast? with
      | some t => do
        pure (ms.set p (.tables (ts.dropLast ++ [← addSection repeats rest name entries t])))
      | none => none
    | some _ => none

end Item

end CapabilityFlow.Toml
