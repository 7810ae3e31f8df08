import WorkflowGraph.Yaml.Draft

/-!
# YAML documents

`Yaml.read?` reads a text that holds one document. The grammar is read from the
tokens by recursive descent, which gives a draft. An anchor is numbered by the names
that were known before it: one that gives a name again takes a number that the next
new name may take too, and a number stands for the node that was opened last under it.
Aliases are resolved when the whole document has been read. A mapping may not hold
one key twice, and a node that holds an alias of itself has no end and is refused.
-/

set_option autoImplicit false

namespace WorkflowGraph.Yaml

/-- The tokens that are left, and what has been seen before them: the number of the anchor
that each name stands for, the number and the draft of every anchor in the order in which
they were opened, the starts that the handles of tags stand for, and the number of events. -/
structure Reading where
  tokens : List Token
  names : List (String × Nat)
  anchors : Array (Nat × Draft)
  handles : List (String × Tag)
  events : Nat

namespace Reading

/-- The next token; the end of the text does not go away. -/
def head (r : Reading) : Token := r.tokens.headD .streamEnd

/-- Pass over a token. -/
def skip (r : Reading) : Reading := { r with tokens := r.tokens.drop 1 }

/-- Count an event: a scalar, an alias, or the start or end of a collection. -/
def count (r : Reading) (n : Nat) : Reading := { r with events := r.events + n }

/-- The number of the anchor that a name stands for. -/
def anchor? (r : Reading) (name : String) : Option Nat :=
  (r.names.find? fun p => p.1 == name).map Prod.snd

/-- Start to read a node that is named by an anchor. -/
def openAnchor (r : Reading) : Option String → Reading
  | none => r
  | some name =>
    let number := r.names.length
    { r with
      names := (name, number) :: r.names.filter fun p => p.1 != name
      anchors := r.anchors.push (number, .empty) }

/-- Note the node of the anchor that was opened at a place. -/
def closeAnchor (r : Reading) (place : Nat) (d : Draft) : Option String → Reading
  | none => r
  | some _ => { r with anchors := r.anchors.modify place fun p => (p.1, d) }

/-- The nodes that the anchors stand for, by their numbers. -/
def numbered (r : Reading) : Array Draft :=
  r.anchors.foldl (fun drafts p =>
    if p.1 < drafts.size then drafts.setIfInBounds p.1 p.2 else drafts.push p.2) #[]

end Reading

/-- What stands in front of a node: the name of an anchor and a tag. -/
structure Properties where
  anchor : Option String
  tag : Option Tag

/-- The start that a handle stands for. -/
def handleStart? (handles : List (String × Tag)) (handle : String) : Option Tag :=
  if handle.isEmpty then some ⟨[]⟩ else (handles.find? fun p => p.1 == handle).map Prod.snd

/-- Read an anchor and a tag, of which each may be missing and either may come first. -/
def readProperties? (r : Reading) : Option (Properties × Reading) :=
  match r.head with
  | .anchor name =>
    match r.skip.head with
    | .tag handle suffix =>
      (handleStart? r.handles handle).map fun start =>
        (⟨some name, some (start.append suffix)⟩, r.skip.skip)
    | _ => some (⟨some name, none⟩, r.skip)
  | .tag handle suffix =>
    (handleStart? r.handles handle).map fun start =>
      match r.skip.head with
      | .anchor name => (⟨some name, some (start.append suffix)⟩, r.skip.skip)
      | _ => (⟨none, some (start.append suffix)⟩, r.skip)
  | _ => some (⟨none, none⟩, r)

/-- A node that is read, and what follows it. -/
abbrev ReadNode : Type := Option (Draft × Reading)

/-- A scalar that is not there. -/
def emptyScalar (r : Reading) : ReadNode := some (.empty, r.count 1)

mutual

/-- Read a node. `depth` is the number of collections that may still be opened;
`inBlock` tells whether a block may start here, and `indentless` whether a
sequence may start without indentation. -/
def readNode? : Nat → Nat → Bool → Bool → Reading → ReadNode
  | 0, _, _, _, _ => none
  | fuel + 1, depth, inBlock, indentless, r =>
    match r.head with
    | .alias name => (r.anchor? name).map fun anchor => (.alias anchor, r.skip.count 1)
    | _ => do
      let (p, r) ← readProperties? r
      let place := r.anchors.size
      let (d, r) ← readContent? fuel depth inBlock indentless p (r.openAnchor p.anchor)
      some (d, r.closeAnchor place d p.anchor)

/-- Read a node whose properties have been read. A node may be empty where it has
a property. -/
def readContent? : Nat → Nat → Bool → Bool → Properties → Reading → ReadNode
  | 0, _, _, _, _, _ => none
  | fuel + 1, depth, inBlock, indentless, p, r =>
    let sequence (items : Option (List Draft × Reading)) : ReadNode :=
      if depth = 0 then none else items.map fun q => (.sequence p.tag q.1, q.2)
    let mapping (entries : Option (List (Draft × Draft) × Reading)) : ReadNode :=
      if depth = 0 then none else entries.map fun q => (.mapping p.tag q.1, q.2)
    let empty : ReadNode :=
      if p.anchor.isNone ∧ p.tag.isNone then none
      else some (.scalar p.tag "" .plain, r.count 1)
    match r.head with
    | .scalar text style => some (.scalar p.tag text style, r.skip.count 1)
    | .flowSequenceStart =>
      sequence (readFlowSequence? fuel (depth - 1) true [] (r.skip.count 2))
    | .flowMappingStart => mapping (readFlowMapping? fuel (depth - 1) true [] (r.skip.count 2))
    | .blockSequenceStart =>
      if inBlock then sequence (readBlockSequence? fuel (depth - 1) [] (r.skip.count 2)) else empty
    | .blockMappingStart =>
      if inBlock then mapping (readBlockMapping? fuel (depth - 1) [] (r.skip.count 2)) else empty
    | .blockEntry =>
      if indentless then sequence (readIndentless? fuel (depth - 1) [] (r.count 2)) else empty
    | _ => empty

/-- Read the items of a block sequence up to its end. -/
def readBlockSequence? : Nat → Nat → List Draft → Reading → Option (List Draft × Reading)
  | 0, _, _, _ => none
  | fuel + 1, depth, items, r =>
    match r.head with
    | .blockEntry => do
      let r := r.skip
      let (n, r) ← match r.head with
        | .blockEntry | .blockEnd => emptyScalar r
        | _ => readNode? fuel depth true false r
      readBlockSequence? fuel depth (items ++ [n]) r
    | .blockEnd => some (items, r.skip)
    | _ => none

/-- Read the items of a sequence that is not indented. -/
def readIndentless? : Nat → Nat → List Draft → Reading → Option (List Draft × Reading)
  | 0, _, _, _ => none
  | fuel + 1, depth, items, r =>
    match r.head with
    | .blockEntry => do
      let r := r.skip
      let (n, r) ← match r.head with
        | .blockEntry | .key | .value | .blockEnd => emptyScalar r
        | _ => readNode? fuel depth true false r
      readIndentless? fuel depth (items ++ [n]) r
    | _ => some (items, r)

/-- Read the entries of a block mapping up to its end. -/
def readBlockMapping? :
    Nat → Nat → List (Draft × Draft) → Reading → Option (List (Draft × Draft) × Reading)
  | 0, _, _, _ => none
  | fuel + 1, depth, entries, r =>
    match r.head with
    | .blockEnd => some (entries, r.skip)
    | .key => do
      let r := r.skip
      let (k, r) ← match r.head with
        | .key | .value | .blockEnd => emptyScalar r
        | _ => readNode? fuel depth true true r
      readBlockValue? fuel depth entries k r
    | _ => none

/-- Read the content behind a key of a block mapping, and the entries after it. -/
def readBlockValue? :
    Nat → Nat → List (Draft × Draft) → Draft → Reading → Option (List (Draft × Draft) × Reading)
  | 0, _, _, _, _ => none
  | fuel + 1, depth, entries, k, r => do
    let (v, r) ← match r.head with
      | .value =>
        let r := r.skip
        match r.head with
        | .key | .value | .blockEnd => emptyScalar r
        | _ => readNode? fuel depth true true r
      | _ => emptyScalar r
    readBlockMapping? fuel depth (entries ++ [(k, v)]) r

/-- Read the items of a sequence in brackets. An item may be a mapping with one entry. -/
def readFlowSequence? : Nat → Nat → Bool → List Draft → Reading → Option (List Draft × Reading)
  | 0, _, _, _, _ => none
  | fuel + 1, depth, first, items, r =>
    if r.head = .flowSequenceEnd then some (items, r.skip)
    else do
      let r ← if first then some r else if r.head = .flowEntry then some r.skip else none
      match r.head with
      | .flowSequenceEnd => some (items, r.skip)
      | .key => do
        let (n, r) ← readFlowPair? fuel depth (r.skip.count 2)
        readFlowSequence? fuel depth false (items ++ [n]) r
      | _ => do
        let (n, r) ← readNode? fuel depth false false r
        readFlowSequence? fuel depth false (items ++ [n]) r

/-- Read the only entry of a mapping that is an item of a sequence in brackets. -/
def readFlowPair? : Nat → Nat → Reading → ReadNode
  | _, 0, _ => none
  | 0, _, _ => none
  | fuel + 1, depth + 1, r => do
    let (k, r) ← match r.head with
      | .value | .flowEntry | .flowSequenceEnd => emptyScalar r.skip
      | _ => readNode? fuel depth false false r
    let (v, r) ← match r.head with
      | .value =>
        let r := r.skip
        match r.head with
        | .flowEntry | .flowSequenceEnd => emptyScalar r
        | _ => readNode? fuel depth false false r
      | _ => emptyScalar r
    some (.mapping none [(k, v)], r)

/-- Read the entries of a mapping in braces. -/
def readFlowMapping? :
    Nat → Nat → Bool → List (Draft × Draft) → Reading → Option (List (Draft × Draft) × Reading)
  | 0, _, _, _, _ => none
  | fuel + 1, depth, first, entries, r =>
    if r.head = .flowMappingEnd then some (entries, r.skip)
    else do
      let r ← if first then some r else if r.head = .flowEntry then some r.skip else none
      match r.head with
      | .flowMappingEnd => some (entries, r.skip)
      | .key => do
        let r := r.skip
        let (k, r) ← match r.head with
          | .value | .flowEntry | .flowMappingEnd => emptyScalar r
          | _ => readNode? fuel depth false false r
        let (v, r) ← match r.head with
          | .value =>
            let r := r.skip
            match r.head with
            | .flowEntry | .flowMappingEnd => emptyScalar r
            | _ => readNode? fuel depth false false r
          | _ => emptyScalar r
        readFlowMapping? fuel depth false (entries ++ [(k, v)]) r
      | _ => do
        let (k, r) ← readNode? fuel depth false false r
        let (v, r) ← emptyScalar r
        readFlowMapping? fuel depth false (entries ++ [(k, v)]) r

end

/-- Read the directives in front of a document; each may stand there once. -/
def readDirectives? : Bool → List (String × Tag) → List Token →
    Option (List (String × Tag) × List Token)
  | versioned, handles, .versionDirective :: rest =>
    if versioned then none else readDirectives? true handles rest
  | versioned, handles, .tagDirective handle start :: rest =>
    if handles.any fun p => p.1 == handle then none
    else readDirectives? versioned (handles ++ [(handle, start)]) rest
  | _, handles, rest => some (handles, rest)

/-- The handles that need no directive. -/
def standardHandles : List (String × Tag) := [("!", .bare), ("!!", .ofText Tag.core)]

/-- The only document that tokens form. Its collections may be nested as deeply as `depth`
tells. -/
def Document.ofTokens? (depth : Nat) (tokens : List Token) : Option Document :=
  match tokens with
  | [] | [.streamEnd] => some ⟨none, #[], 1⟩
  | tokens => do
    let (handles, rest) ← readDirectives? false [] tokens
    let marked := rest.head? = some .documentStart
    if rest.length < tokens.length ∧ !marked then none
    else
      let rest := if marked then rest.drop 1 else rest
      let r : Reading := ⟨rest, [], #[], handles ++ standardHandles, 0⟩
      let (d, r) ← match r.head with
        | .versionDirective | .tagDirective _ _ | .documentStart | .documentEnd | .streamEnd =>
          if marked then emptyScalar r else none
        | _ => readNode? (8 * rest.length + 8) depth true false r
      let ended := r.tokens.dropWhile fun t => t = .documentEnd
      if ended ≠ [.streamEnd] then none else some ⟨some d, r.numbered, r.events⟩

/-- Read a text that holds one document. -/
def read? (text : String) : Option Node := do
  (← Document.ofTokens? maxDepth (← scan? text)).content?

end WorkflowGraph.Yaml
