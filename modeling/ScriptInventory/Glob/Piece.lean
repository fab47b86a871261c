/-!
# Pieces of globs

A glob is matched against the UTF-8 bytes of a path. It is a list of pieces, each of
which takes a part of the path; `rests` gives what may be left behind a piece.
-/

namespace ScriptInventory.Glob

/-- A piece of a glob. -/
inductive Piece where
  | byte (b : UInt8)
  /-- Any byte but a slash. -/
  | one
  /-- Any bytes but slashes. -/
  | run
  /-- A byte in one of some ranges, or in none of them. -/
  | oneOf (negated : Bool) (ranges : List (UInt8 × UInt8))
  /-- Nothing, or anything up to a slash. -/
  | leading
  /-- A slash and anything behind it. -/
  | trailing
  /-- A slash, or anything between two slashes. -/
  | between
deriving DecidableEq, Repr, Inhabited

def slash : UInt8 := 0x2F

/-- What may be left behind bytes that are no slashes. -/
def runRests : List UInt8 → List (List UInt8)
  | [] => [[]]
  | b :: rest => (b :: rest) :: if b = slash then [] else runRests rest

def slashRests : List UInt8 → List (List UInt8)
  | [] => []
  | b :: rest => if b = slash then rest :: slashRests rest else slashRests rest

/-- What may be left behind anything. -/
def anyRests : List UInt8 → List (List UInt8)
  | [] => [[]]
  | b :: rest => (b :: rest) :: anyRests rest

/-- Whether a byte is in one of some ranges. -/
def inRanges (ranges : List (UInt8 × UInt8)) (b : UInt8) : Bool :=
  ranges.any fun r => r.1 ≤ b && b ≤ r.2

/-- What may be left of some bytes behind a piece. -/
def Piece.rests : Piece → List UInt8 → List (List UInt8)
  | .byte _, [] => []
  | .byte a, b :: rest => if a = b then [rest] else []
  | .one, [] => []
  | .one, b :: rest => if b = slash then [] else [rest]
  | .run, bytes => runRests bytes
  | .oneOf _ _, [] => []
  | .oneOf negated ranges, b :: rest => if inRanges ranges b != negated then [rest] else []
  | .leading, bytes => bytes :: slashRests bytes
  | .trailing, [] => []
  | .trailing, b :: rest => if b = slash then anyRests rest else []
  | .between, [] => []
  | .between, b :: rest => if b = slash then rest :: slashRests rest else []

/-- Whether pieces take all of some bytes. -/
def matchPieces : List Piece → List UInt8 → Bool
  | [], bytes => bytes.isEmpty
  | p :: pieces, bytes => (p.rests bytes).any (matchPieces pieces)

def utf8 (text : List Char) : List UInt8 := text.flatMap String.utf8EncodeChar

end ScriptInventory.Glob
