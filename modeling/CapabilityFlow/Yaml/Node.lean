import CapabilityFlow.Yaml.Tokenizer

/-!
# Nodes of YAML documents

`Document.ofText?` reads a text that holds one document at most, and `Document.tree?` gives its node
with every alias replaced by the node that it stands for.
-/

namespace CapabilityFlow.Yaml

/-- A node of a document. Tags are given in full. -/
inductive Node where
  | scalar (style : Style) (tag : Option String) (text : String)
  | sequence (tag : Option String) (items : List Node)
  | mapping (tag : Option String) (entries : List (Node × Node))
  /-- Stands for the node of an anchor, which is given by its number. -/
  | aliasOf (anchor : Nat)
deriving Repr, Inhabited

namespace Node

/-- The node that nothing is written for. -/
def empty : Node := .scalar .plain none ""

end Node

/-- The state between two nodes. -/
structure Parsing where
  tokens : List Token
  /-- What tag handles stand for. -/
  handles : List (String × String)
  /-- The numbers of anchors, by name. -/
  anchors : List (String × Nat)
  /-- How many nodes have had an anchor. -/
  anchored : Nat
  /-- The anchored node of a number; the latest comes first. -/
  places : List (Nat × Nat)
  /-- The anchored nodes that are complete. -/
  nodes : List (Nat × Node)

/-- A reading of nodes, which may fail. -/
abbrev Reading := StateT Parsing Option

namespace Reading

def peek : Reading (Option Token) := do
  pure (← get).tokens.head?

def skip : Reading Unit :=
  modify fun s => { s with tokens := s.tokens.tail }

/-- Whether the next token is one of some. -/
def nextIn (ts : List Token) : Reading Bool := do
  match ← peek with
  | some t => pure (ts.contains t)
  | none => pure false

/-- The anchor and the tag before a node, in either order. -/
def properties : Reading (Option String × Option (String × String)) := do
  match ← peek with
  | some (.anchor name) =>
    skip
    match ← peek with
    | some (.tag handle rest) =>
      skip
      pure (some name, some (handle, rest))
    | _ => pure (some name, none)
  | some (.tag handle rest) =>
    skip
    match ← peek with
    | some (.anchor name) =>
      skip
      pure (some name, some (handle, rest))
    | _ => pure (none, some (handle, rest))
  | _ => pure (none, none)

/-- A tag in full; its handle has to be known. -/
def fullTag : Option (String × String) → Reading (Option String)
  | none => pure none
  | some ("", rest) => pure (some rest)
  | some (handle, rest) => do
    match (← get).handles.lookup handle with
    | some lead => pure (some (lead ++ rest))
    | none => failure

/-- Gives an anchor its number, and the node that follows its place. An anchor takes the number of
distinct names before it, also when its own name is among them. -/
def register : Option String → Reading (Option Nat)
  | none => pure none
  | some name => do
    let s ← get
    let number := s.anchors.length
    set { s with
      anchors := (name, number) :: s.anchors.filter (·.1 != name)
      anchored := s.anchored + 1
      places := (number, s.anchored) :: s.places }
    pure (some s.anchored)

/-- Completes an anchored node. -/
def record (place : Option Nat) (n : Node) : Reading Node := do
  if let some place := place then modify fun s => { s with nodes := (place, n) :: s.nodes }
  pure n

mutual

/-- Reads a node. Block collections are allowed where `block` says so, and where `indentless` does,
a sequence that is not indented deeper than the key before it. -/
def node (fuel : Nat) (block indentless : Bool) : Reading Node :=
  match fuel with
  | 0 => failure
  | fuel + 1 => do
    match ← peek with
    | some (.aliasOf name) =>
      skip
      match (← get).anchors.lookup name with
      | some number => pure (.aliasOf number)
      | none => failure
    | _ =>
      let (anchor, written) ← properties
      let tag ← fullTag written
      let place ← register anchor
      let content ← peek
      match content with
      | some (.scalar style text) =>
        skip
        record place (.scalar style tag text)
      | some .flowSequenceStart =>
        skip
        record place (.sequence tag (← flowItems fuel true))
      | some .flowMappingStart =>
        skip
        record place (.mapping tag (← flowEntries fuel true))
      | _ =>
        if indentless && content = some .blockEntry then
          record place (.sequence tag (← indentlessItems fuel))
        else if block && content = some .blockSequenceStart then
          skip
          record place (.sequence tag (← blockItems fuel))
        else if block && content = some .blockMappingStart then
          skip
          record place (.mapping tag (← blockEntries fuel))
        else if anchor.isSome || tag.isSome then record place (.scalar .plain tag "")
        else failure

/-- Reads a node, or nothing where one of some tokens follows. -/
def nodeUnless (fuel : Nat) (stops : List Token) (block indentless : Bool) : Reading Node :=
  match fuel with
  | 0 => failure
  | fuel + 1 => do
    if ← nextIn stops then pure .empty else node fuel block indentless

/-- Reads the items of a block sequence up to its end. -/
def blockItems (fuel : Nat) : Reading (List Node) :=
  match fuel with
  | 0 => failure
  | fuel + 1 => do
    match ← peek with
    | some .blockEntry =>
      skip
      let n ← nodeUnless fuel [.blockEntry, .blockEnd] true false
      pure (n :: (← blockItems fuel))
    | some .blockEnd =>
      skip
      pure []
    | _ => failure

/-- Reads the items of a sequence that is not indented. -/
def indentlessItems (fuel : Nat) : Reading (List Node) :=
  match fuel with
  | 0 => failure
  | fuel + 1 => do
    match ← peek with
    | some .blockEntry =>
      skip
      let n ← nodeUnless fuel [.blockEntry, .key, .value, .blockEnd] true false
      pure (n :: (← indentlessItems fuel))
    | _ => pure []

/-- Reads the entries of a block mapping up to its end. -/
def blockEntries (fuel : Nat) : Reading (List (Node × Node)) :=
  match fuel with
  | 0 => failure
  | fuel + 1 => do
    match ← peek with
    | some .key =>
      skip
      let k ← nodeUnless fuel [.key, .value, .blockEnd] true true
      let v ← blockValue fuel
      pure ((k, v) :: (← blockEntries fuel))
    | some .blockEnd =>
      skip
      pure []
    | _ => failure

/-- Reads the value of a block mapping entry, if there is one. -/
def blockValue (fuel : Nat) : Reading Node :=
  match fuel with
  | 0 => failure
  | fuel + 1 => do
    match ← peek with
    | some .value =>
      skip
      nodeUnless fuel [.key, .value, .blockEnd] true true
    | _ => pure .empty

/-- Reads the items of a flow sequence up to its end; a pair is a mapping of one entry. -/
def flowItems (fuel : Nat) (first : Bool) : Reading (List Node) :=
  match fuel with
  | 0 => failure
  | fuel + 1 => do
    if ← nextIn [.flowSequenceEnd] then
      skip
      pure []
    else
      if !first then
        if ← nextIn [.flowEntry] then skip else failure
      match ← peek with
      | some .key =>
        skip
        let n ← flowPair fuel
        pure (n :: (← flowItems fuel false))
      | some .flowSequenceEnd =>
        skip
        pure []
      | _ =>
        let n ← node fuel false false
        pure (n :: (← flowItems fuel false))

/-- Reads a pair in a flow sequence after the mark of its key. Where the key is missing, the token
after the mark is passed over. -/
def flowPair (fuel : Nat) : Reading Node :=
  match fuel with
  | 0 => failure
  | fuel + 1 => do
    let k ← if ← nextIn [.value, .flowEntry, .flowSequenceEnd] then do
        skip
        pure Node.empty
      else node fuel false false
    let v ← flowValue fuel [.flowEntry, .flowSequenceEnd]
    pure (.mapping none [(k, v)])

/-- Reads the value of an entry in a flow collection, if there is one. -/
def flowValue (fuel : Nat) (stops : List Token) : Reading Node :=
  match fuel with
  | 0 => failure
  | fuel + 1 => do
    if ← nextIn [.value] then
      skip
      nodeUnless fuel stops false false
    else pure .empty

/-- Reads the entries of a flow mapping up to its end; a node without the mark of a key is a key
without a value. -/
def flowEntries (fuel : Nat) (first : Bool) : Reading (List (Node × Node)) :=
  match fuel with
  | 0 => failure
  | fuel + 1 => do
    if ← nextIn [.flowMappingEnd] then
      skip
      pure []
    else
      if !first then
        if ← nextIn [.flowEntry] then skip else failure
      match ← peek with
      | some .key =>
        skip
        let k ← nodeUnless fuel [.value, .flowEntry, .flowMappingEnd] false false
        let v ← flowValue fuel [.flowEntry, .flowMappingEnd]
        pure ((k, v) :: (← flowEntries fuel false))
      | some .flowMappingEnd =>
        skip
        pure []
      | _ =>
        let k ← node fuel false false
        pure ((k, .empty) :: (← flowEntries fuel false))

end

/-! ## Documents -/

/-- What tag handles stand for unless a directive says otherwise. -/
def defaultHandles : List (String × String) :=
  [("!", "!"), ("!!", "tag:yaml.org,2002:")]

/-- Reads the directives before a document: one version at most, of YAML 1.1 or 1.2, and each
handle once. -/
def directives (versioned : Bool) : List Token → Reading Unit
  | .versionDirective major minor :: rest => do
    skip
    if versioned || major ≠ 1 || (minor ≠ 1 && minor ≠ 2) then failure
    directives true rest
  | .tagDirective handle lead :: rest => do
    skip
    let s ← get
    if (s.handles.lookup handle).isSome then failure
    set { s with handles := (handle, lead) :: s.handles }
    directives versioned rest
  | _ => pure ()

/-- Reads the one document of a text, and nothing after it. -/
def document (fuel : Nat) : Reading (Option Node) := do
  let tokens := (← get).tokens
  let root ← match tokens.head? with
    | none => pure none
    | some (.versionDirective ..) | some (.tagDirective ..) | some .documentStart => do
      directives false tokens
      modify fun s => { s with handles := s.handles ++ defaultHandles }
      if ← nextIn [.documentStart] then skip else failure
      match ← peek with
      | none | some .documentStart | some .documentEnd | some (.versionDirective ..)
      | some (.tagDirective ..) => pure (some Node.empty)
      | _ => some <$> node fuel true false
    | some _ => do
      modify fun s => { s with handles := defaultHandles }
      some <$> node fuel true false
  if (← get).tokens.all (· = .documentEnd) then pure root else failure

end Reading

/-- A document: its node, and the nodes of its anchors by their numbers. -/
structure Document where
  /-- There is none in a text without a document. -/
  root : Option Node
  anchors : List (Nat × Node)
deriving Repr

namespace Document

/-- The document of a text. -/
def ofText? (text : String) : Option Document := do
  let tokens ← Token.ofChars? text.toList
  let start : Parsing := ⟨tokens, [], [], 0, [], []⟩
  let (root, s) ← (Reading.document (8 * tokens.length + 16)).run start
  pure ⟨root, s.places.filterMap fun p => (s.nodes.lookup p.2).map (p.1, ·)⟩

/-- How deep collections may be nested. -/
def maxDepth : Nat := 128

/-- How many starts and ends of nodes there are in a node. -/
def eventCount : Node → Nat
  | .scalar .. | .aliasOf _ => 1
  | .sequence _ items => (items.map eventCount).foldl (· + ·) 2
  | .mapping _ entries => (entries.map fun e => eventCount e.1 + eventCount e.2).foldl (· + ·) 2
termination_by n => sizeOf n
decreasing_by
  · have := List.sizeOf_lt_of_mem ‹_ ∈ _›
    simp; omega
  all_goals
    have h := List.sizeOf_lt_of_mem ‹_ ∈ _›
    have : sizeOf e = 1 + sizeOf e.1 + sizeOf e.2 := by cases e; rfl
    simp; omega

/-- The node that an alias stands for, which takes one of the remaining replacements. -/
def target (d : Document) : Node → StateT Nat Option Node
  | .aliasOf number => do
    let left ← get
    if left = 0 then failure
    set (left - 1)
    match d.anchors.lookup number with
    | some n => pure n
    | none => failure
  | n => pure n

/-- A node without aliases. `room` bounds how deep it may be nested. -/
def expand (d : Document) (room : Nat) (n : Node) : StateT Nat Option Node := do
  match ← d.target n, room with
  | .scalar style tag text, _ => pure (.scalar style tag text)
  | .sequence tag items, room + 1 => pure (.sequence tag (← items.mapM (expand d room)))
  | .mapping tag entries, room + 1 =>
    let entries ← entries.mapM fun e => do pure (← expand d room e.1, ← expand d room e.2)
    pure (.mapping tag entries)
  | _, _ => failure

/-- The node of a document without aliases. Replacing aliases may not go on for ever, nor for more
than a hundred times as often as there are nodes. -/
def tree? (d : Document) : Option (Option Node) :=
  match d.root with
  | none => some none
  | some root => ((d.expand maxDepth root).run (100 * eventCount root)).map fun (n, _) => some n

end Document

end CapabilityFlow.Yaml
