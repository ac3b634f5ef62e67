/-
# The device tree parser (`DeviceTree.cpp`)

`Init` counts the nodes and properties of a flattened device tree, allocates them, and then parses the
cells recursively.  The cells are big-endian.  The counting pass compares them as the host reads them;
the limit for the search of the end of a node's name is in cells, not in bytes; and the hooks for
special properties are never reached.
-/
import Northport.Lib.Word

namespace Northport.Config

open Lib

abbrev Byte := BitVec 8

/-- Four bytes of the structure block. -/
structure Cell where
  b0 : Byte
  b1 : Byte
  b2 : Byte
  b3 : Byte
deriving DecidableEq, Repr

namespace Cell

/-- `Bs(cell)` -/
def value (c : Cell) : ℕ :=
  ((c.b0.toNat * 256 + c.b1.toNat) * 256 + c.b2.toNat) * 256 + c.b3.toNat

/-- The cell as the host reads it. -/
def raw (bigEndian : Bool) (c : Cell) : ℕ :=
  if bigEndian then c.value else (⟨c.b3, c.b2, c.b1, c.b0⟩ : Cell).value

def bytes (c : Cell) : List Byte := [c.b0, c.b1, c.b2, c.b3]

end Cell

def FdtBeginNode : ℕ := 1
def FdtEndNode : ℕ := 2
def FdtProp : ℕ := 3
def FdtEnd : ℕ := 9

/-- The bytes from a cell on. -/
def cellBytes (cells : List Cell) : List Byte := cells.flatMap Cell.bytes

/-- `sl::memfirst(buff, 0, upperLimit)`; a limit of 0 is none. -/
def memfirst (buff : List Byte) (upperLimit : ℕ) : ℕ :=
  (if upperLimit = 0 then buff else buff.take upperLimit).findIdx (· = 0)

/-- Nodes that are siblings of each other, with their children; `info` is what else a node has. -/
inductive DtForest (α : Type) where
  | nil
  | node (name : List Byte) (props : List (List Byte × List Byte)) (info : α)
      (child sibling : DtForest α)

structure DtCells where
  addrCells : ℕ
  sizeCells : ℕ

def ofString (s : String) : List Byte := s.toList.map fun c => BitVec.ofNat 8 c.toNat

def phandleName : List Byte := ofString "phandle"
def linuxPhandleName : List Byte := ofString "linux,phandle"
def addressCellsName : List Byte := ofString "#address-cells"
def sizeCellsName : List Byte := ofString "#size-cells"

/-- How far the parser is, and how much room it has left. -/
structure ParseState where
  cells : List Cell
  nodeBuffRemain : ℕ
  propBuffRemain : ℕ

/-- A node whose children and properties are being parsed. -/
structure OpenNode where
  props : List (List Byte × List Byte)
  info : DtCells
  child : DtForest DtCells

namespace DeviceTree

/-- `prop->ReadValue(1)`, where the property has a cell. -/
def readValue (data : List Byte) : Option ℕ :=
  match data with
  | [] => none
  | a :: l => some ((⟨a, l.getD 0 0, l.getD 1 0, l.getD 2 0⟩ : Cell).value)

/-- `none` for the write through `phandleLookup`, which is null. -/
def checkForHooks (node : OpenNode) (prop : List Byte × List Byte) : Option OpenNode :=
  let name0 := prop.1.headD 0
  if name0 ≠ 0x23#8 ∨ name0 ≠ 0x70#8 ∨ name0 ≠ 0x6C#8 then some node
  else if prop.1 = phandleName ∨ prop.1 = linuxPhandleName then none
  else if prop.1 = addressCellsName then
    some { node with info.addrCells := (readValue prop.2).getD 0 % 256 }
  else if prop.1 = sizeCellsName then
    some { node with info.sizeCells := (readValue prop.2).getD 0 % 256 }
  else some node

variable (strings : List Byte)

/-- The start of `ParseNode`: the name, and the cells behind it. -/
def parseName (s : ParseState) : Option (List Byte × ParseState) :=
  if s.nodeBuffRemain = 0 then none
  else
    let name := cellBytes s.cells.tail
    let nameLen := memfirst name s.cells.length
    if nameLen < s.cells.length then
      some (name.take nameLen, { s with cells := s.cells.drop (alignUp (nameLen + 1) 4 / 4 + 1)
                                        nodeBuffRemain := s.nodeBuffRemain - 1 })
    else none

def parseProp (s : ParseState) : Option ((List Byte × List Byte) × ParseState) :=
  match s.cells with
  | _ :: length :: nameOffset :: rest =>
    let name := strings.drop nameOffset.value
    let limit := strings.length - nameOffset.value
    if s.propBuffRemain = 0 ∨ memfirst name limit = limit then none
    else
      some ((name.take (memfirst name limit), (cellBytes rest).take length.value),
        { s with cells := rest.drop (alignUp length.value 4 / 4)
                 propBuffRemain := s.propBuffRemain - 1 })
  | _ => none

/-- The loop of `ParseNode`; `info` are its arguments, which it passes on. -/
def parseBody (info : DtCells) : ℕ → ParseState → OpenNode → Option (OpenNode × ParseState)
  | 0, _, _ => none
  | fuel + 1, s, node =>
    match s.cells with
    | [] => none
    | token :: rest =>
      if token.value = FdtEndNode then some (node, { s with cells := rest })
      else if token.value = FdtBeginNode then
        (parseName s).bind fun (name, s) =>
          (parseBody info fuel s ⟨[], info, .nil⟩).bind fun (inner, s) =>
            parseBody info fuel s { node with
              child := .node name inner.props inner.info inner.child node.child }
      else if token.value = FdtProp then
        (parseProp strings s).bind fun (prop, s) =>
          (checkForHooks { node with props := prop :: node.props } prop).bind
            (parseBody info fuel s)
      else parseBody info fuel { s with cells := rest } node

/-- The loop of `Init` over the roots. -/
def parseRoots : ℕ → ParseState → DtForest DtCells → Option (DtForest DtCells)
  | 0, _, _ => none
  | fuel + 1, s, root =>
    match s.cells with
    | [] => some root
    | token :: rest =>
      if token.value ≠ FdtBeginNode then parseRoots fuel { s with cells := rest } root
      else
        (parseName s).bind fun (name, s) =>
          (parseBody strings ⟨2, 1⟩ fuel s ⟨[], ⟨2, 1⟩, .nil⟩).bind fun (inner, s) =>
            parseRoots fuel { s with cells := s.cells.tail }
              (.node name inner.props inner.info inner.child root)

end DeviceTree

/-- The byte order of the host, and whether memory can be read at its physical address, at which the
parser looks for the blocks (unlike for the header). -/
structure DtHost where
  bigEndian : Bool
  physReadable : Bool

/-- `phandleLookup` is null. -/
structure DeviceTree where
  root : DtForest DtCells
  phandleCount : ℕ
  phandleLookup : Option (ℕ → Option (DtForest DtCells)) := none

namespace DeviceTree

def count (host : DtHost) (cells : List Cell) (token : ℕ) : ℕ :=
  cells.countP fun c => c.raw host.bigEndian = token

def init (host : DtHost) (strings : List Byte) (cells : List Cell) : Option DeviceTree :=
  if host.physReadable then
    (parseRoots strings (cells.length + 1)
      ⟨cells, count host cells FdtBeginNode, count host cells FdtProp⟩ .nil).map
        fun root => ⟨root, count host cells FdtBeginNode, none⟩
  else none

/-- `none` when the null pointer is read. -/
def findPHandle (t : DeviceTree) (phandle : ℕ) : Option (Option (DtForest DtCells)) :=
  if phandle > t.phandleCount then some none else t.phandleLookup.map fun lookup => lookup phandle

end DeviceTree

/-! ### The flattened encoding -/

/-- A property, as it is encoded: its name is a terminated string of the strings block. -/
structure DtProperty (strings : List Byte) where
  nameOffset : ℕ
  data : List Byte
  offset_lt : nameOffset < 2 ^ 32
  terminated : 0 ∈ strings.drop nameOffset
  data_lt : data.length < 2 ^ 32

/-- A device tree whose property names are in a strings block. -/
inductive DtSource (strings : List Byte) where
  | nil
  | node (name : { l : List Byte // 0 ∉ l ∧ l.length < 2 ^ 32 })
      (props : List (DtProperty strings)) (children siblings : DtSource strings)

/-- The cells that begin with some bytes and are filled up with zeros. -/
def toCells : List Byte → List Cell
  | [] => []
  | [a] => [⟨a, 0, 0, 0⟩]
  | [a, b] => [⟨a, b, 0, 0⟩]
  | [a, b, d] => [⟨a, b, d, 0⟩]
  | a :: b :: d :: e :: l => ⟨a, b, d, e⟩ :: toCells l

/-- A big-endian cell. -/
def toCell (v : ℕ) : Cell :=
  ⟨BitVec.ofNat 8 (v / 0x1000000), BitVec.ofNat 8 (v / 0x10000), BitVec.ofNat 8 (v / 0x100),
    BitVec.ofNat 8 v⟩

variable {strings : List Byte}

namespace DtProperty

def encode (p : DtProperty strings) : List Cell :=
  toCell FdtProp :: toCell p.data.length :: toCell p.nameOffset :: toCells p.data

/-- The name and the bytes of a property. -/
def plain (p : DtProperty strings) : List Byte × List Byte :=
  ((strings.drop p.nameOffset).takeWhile (· ≠ 0), p.data)

end DtProperty

namespace DtSource

def encode : DtSource strings → List Cell
  | nil => []
  | node name props children siblings =>
    toCell FdtBeginNode :: (toCells (name.val ++ [0]) ++ (props.flatMap DtProperty.encode ++
      (children.encode ++ toCell FdtEndNode :: siblings.encode)))

/-- The structure block of a tree with this root. -/
def block (root : DtSource strings) : List Cell := root.encode ++ [toCell FdtEnd]

def nodes : DtSource strings → ℕ
  | nil => 0
  | node _ _ children siblings => 1 + children.nodes + siblings.nodes

def props : DtSource strings → ℕ
  | nil => 0
  | node _ props children siblings => props.length + children.props + siblings.props

/-- The tree itself, with its children and properties in reverse order, in front of other nodes. -/
def mirror {α : Type} (info : α) : DtSource strings → DtForest α → DtForest α
  | nil, rest => rest
  | node name props children siblings, rest =>
    siblings.mirror info (.node name.val (props.map DtProperty.plain).reverse info
      (children.mirror info .nil) rest)

end DtSource

/-! ### What the parser should do -/

namespace DtForest

variable {α : Type}

/-- All nodes of a forest have a property. -/
def All (P : DtForest α → List (List Byte × List Byte) → α → Prop) : DtForest α → Prop
  | nil => True
  | node name props info child sibling =>
    P (node name props info child sibling) props info ∧ child.All P ∧ sibling.All P

def forget : DtForest α → DtForest Unit
  | nil => nil
  | node name props _ child sibling => node name props () child.forget sibling.forget

end DtForest

/-- **The round trip**: parsing fires no assertion and rebuilds the tree, with the children and the
properties of each node in reverse order; each node has the cell counts that its own properties give; and each phandle leads to
its node. -/
structure RoundTrip (root : DtSource strings) (t : DeviceTree) : Prop where
  tree : t.root.forget = root.mirror () .nil
  cells : t.root.All fun _ props info => ∀ p ∈ props,
    (p.1 = addressCellsName → DeviceTree.readValue p.2 = some info.addrCells) ∧
    (p.1 = sizeCellsName → DeviceTree.readValue p.2 = some info.sizeCells)
  phandles : t.root.All fun node props _ => ∀ p ∈ props, p.1 = phandleName →
    ∀ h, DeviceTree.readValue p.2 = some h → t.findPHandle h = some (some node)

namespace DtSource

/-- A node's name is shorter, in bytes, than the rest of the block is, in cells. -/
def NamesFit : DtSource strings → ℕ → Prop
  | nil, _ => True
  | node name props children siblings, rest =>
    name.val.length < (node name props children siblings).encode.length + rest ∧
      children.NamesFit (1 + siblings.encode.length + rest) ∧ siblings.NamesFit rest

/-- No property asks for another number of cells than the default, and none is a phandle. -/
def Plain : DtSource strings → Prop
  | nil => True
  | node _ props children siblings =>
    (∀ p ∈ props, (p.plain.1 = addressCellsName → DeviceTree.readValue p.data = some 2) ∧
      (p.plain.1 = sizeCellsName → DeviceTree.readValue p.data = some 1) ∧
      (p.plain.1 = phandleName → DeviceTree.readValue p.data = none)) ∧
      children.Plain ∧ siblings.Plain

/-- **When the parser works.**  A little-endian host finds the tokens that it counts only by accident,
in cells that read as they do backwards. -/
structure Parsable (host : DtHost) (root : DtSource strings) : Prop where
  readable : host.physReadable = true
  nodes : host.bigEndian = false → root.nodes ≤ DeviceTree.count host root.block FdtBeginNode
  props : host.bigEndian = false → root.props ≤ DeviceTree.count host root.block FdtProp
  names : root.NamesFit 1
  plain : root.Plain

end DtSource

end Northport.Config
