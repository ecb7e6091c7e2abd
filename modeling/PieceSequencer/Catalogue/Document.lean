import PieceSequencer.Catalogue.Basic
import PieceSequencer.Json.Codec

/-! # Stored catalogues

A catalogue is stored as an array of piece records. `Catalogue.toText` writes it and
`Catalogue.ofText` reads it, with any codec. -/

namespace PieceSequencer

open Json (Field Form)

/-! ### Writing -/

def Point.toJson (p : Point) : Json := .object [("x", .number p.x), ("y", .number p.y)]

/-- An origin is written only if there is one. -/
def Shape.toJson (shape : Shape) : Json :=
  .object ([("blocks", .array (shape.blocks.map Point.toJson)),
      ("rotation_pivot", shape.pivot.toJson)] ++
    shape.origin.toList.map fun origin => ("origin", origin.toJson))

def Piece.toJson (piece : Piece) : Json :=
  .object [("key", .text piece.key.toString), ("shape", piece.shape.toJson),
    ("spawn_offset", piece.spawnOffset.toJson)]

def Catalogue.toJson (c : Catalogue) : Json := .array (c.pieces.map Piece.toJson)

/-- The stored form of a catalogue. -/
def Catalogue.toText (c : Catalogue) (codec : Json.Codec := Json.codec) : String :=
  codec.indented c.toJson

/-! ### Reading -/

/-- A point whose coordinates are being read. -/
structure Point.Draft where
  x : Option Binary64
  y : Option Binary64

/-- A shape whose parts are being read. The origin is read as soon as it is there, be it `null`. -/
structure Shape.Draft where
  blocks : Option { blocks : List Point // blocks.length ≤ maxBlocks }
  pivot : Option Point
  origin : Option (Option Point)

/-- A piece whose parts are being read. -/
structure Piece.Draft where
  key : Option Char
  shape : Option Shape
  spawnOffset : Option Point

section
variable (codec : Json.Codec)

/-- What a point consists of. -/
def Point.form : Form codec.Reader Point.Draft Point where
  title := "struct Point"
  fields :=
    [⟨"x", false, codec.number, (·.x), fun d v => { d with x := some v }⟩,
     ⟨"y", false, codec.number, (·.y), fun d v => { d with y := some v }⟩]
  start := ⟨none, none⟩
  finish := fun d => do
    return ⟨← Field.demand "x" d.x, ← Field.demand "y" d.y⟩

/-- What reads a point. -/
def Point.reader : codec.Reader Point := codec.record (Point.form codec)

/-- What a shape consists of. It can do without an origin. -/
def Shape.form : Form codec.Reader Shape.Draft Shape where
  title := "struct PieceShape"
  fields :=
    [⟨"blocks", false, codec.bounded maxBlocks (Point.reader codec), (·.blocks),
      fun d v => { d with blocks := some v }⟩,
     ⟨"rotation_pivot", false, Point.reader codec, (·.pivot),
      fun d v => { d with pivot := some v }⟩,
     ⟨"origin", true, codec.optional (Point.reader codec), (·.origin),
      fun d v => { d with origin := some v }⟩]
  start := ⟨none, none, none⟩
  finish := fun d => do
    let ⟨blocks, h⟩ ← Field.demand "blocks" d.blocks
    return ⟨blocks, ← Field.demand "rotation_pivot" d.pivot, d.origin.getD none, h⟩

/-- What reads a shape. -/
def Shape.reader : codec.Reader Shape := codec.record (Shape.form codec)

/-- What a piece consists of. -/
def Piece.form : Form codec.Reader Piece.Draft Piece where
  title := "struct PieceDefinition"
  fields :=
    [⟨"key", false, codec.character, (·.key), fun d v => { d with key := some v }⟩,
     ⟨"shape", false, Shape.reader codec, (·.shape), fun d v => { d with shape := some v }⟩,
     ⟨"spawn_offset", false, Point.reader codec, (·.spawnOffset),
      fun d v => { d with spawnOffset := some v }⟩]
  start := ⟨none, none, none⟩
  finish := fun d => do
    return ⟨← Field.demand "key" d.key, ← Field.demand "shape" d.shape,
      ← Field.demand "spawn_offset" d.spawnOffset⟩

/-- What reads a piece. -/
def Piece.reader : codec.Reader Piece := codec.record (Piece.form codec)

end

/-- The catalogue that a text stores. -/
def Catalogue.ofText (text : String) (codec : Json.Codec := Json.codec) :
    Except Json.Fault Catalogue := do
  return ⟨← codec.read (codec.array (Piece.reader codec)) text⟩

end PieceSequencer
