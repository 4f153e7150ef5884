/-!
# Blanks and fields

Which characters count as blank, and how a text falls into fields between separators.
-/

namespace LawProof.Text

/-- The characters with the Unicode property White_Space. -/
def isBlank (c : Char) : Bool :=
  let n := c.toNat
  (0x9 ≤ n && n ≤ 0xD) || n == 0x20 || n == 0x85 || n == 0xA0 || n == 0x1680 ||
    (0x2000 ≤ n && n ≤ 0x200A) || n == 0x2028 || n == 0x2029 || n == 0x202F || n == 0x205F ||
    n == 0x3000

/-- Drops the blanks at both ends. -/
def trim (cs : List Char) : List Char :=
  ((cs.dropWhile isBlank).reverse.dropWhile isBlank).reverse

/-- Cuts a text at every separator; between two separators in a row lies an empty piece. -/
def split (sep : Char → Bool) : List Char → List (List Char)
  | [] => [[]]
  | c :: cs =>
    if sep c then [] :: split sep cs
    else
      match split sep cs with
      | [] => [[c]]
      | piece :: rest => (c :: piece) :: rest

/-- The pieces between separators that are not empty. -/
def fields (sep : Char → Bool) (cs : List Char) : List (List Char) :=
  (split sep cs).filter (fun piece => !piece.isEmpty)

/-- Lower case for the ASCII letters, every other character as it is. -/
def lower (cs : List Char) : List Char := cs.map Char.toLower

end LawProof.Text
