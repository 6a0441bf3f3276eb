/-!
How alike two texts are: the share of characters that matching blocks have in common. The longest
common block comes first, then the longest ones before and behind it, and so on.
-/

namespace Swatch.Text

def commonLength : List Char → List Char → Nat
  | a :: as, b :: bs => if a = b then commonLength as bs + 1 else 0
  | _, _ => 0

/-- A block of characters that two texts have in common, by where it starts in each. -/
structure Block where
  left : Nat
  right : Nat
  size : Nat
  deriving DecidableEq, Repr

/-- The longest common block; of equally long ones the first in the left text, then in the right
one. -/
def longestBlock (as bs : List Char) : Block :=
  let blocks := (List.range as.length).flatMap fun i =>
    (List.range bs.length).map fun j => Block.mk i j (commonLength (as.drop i) (bs.drop j))
  blocks.foldl (fun best block => if best.size < block.size then block else best) ⟨0, 0, 0⟩

/-- How many characters are in matching blocks, of which there are at most `fuel` in a row. -/
def matching : (fuel : Nat) → List Char → List Char → Nat
  | 0, _, _ => 0
  | fuel + 1, as, bs =>
    let block := longestBlock as bs
    if block.size = 0 then 0
    else
      matching fuel (as.take block.left) (bs.take block.right) + block.size +
        matching fuel (as.drop (block.left + block.size)) (bs.drop (block.right + block.size))

/-- A name, with how many of its characters are in matching blocks with some text, and how many it
and the text have together. -/
structure Candidate where
  name : String
  shared : Nat
  total : Nat

def Candidate.of (s name : String) : Candidate :=
  ⟨name, matching (name.length + 1) name.toList s.toList, name.length + s.length⟩

def Candidate.isAlike (c : Candidate) : Bool :=
  3 * c.total ≤ 5 * (2 * c.shared)

/-- Whether the share that matches is greater for one name than for another; of two that are equally
alike, the later name counts as better. -/
def Candidate.isBetter (c d : Candidate) : Bool :=
  let left := c.shared * d.total
  let right := d.shared * c.total
  if left = right then decide (d.name ≤ c.name) else right < left

def similar (s : String) (names : List String) : List String :=
  let alike := (names.map (Candidate.of s)).filter Candidate.isAlike
  let best := (alike.mergeSort Candidate.isBetter).take 3
  (best.map Candidate.name).mergeSort fun a b => decide (a ≤ b)

end Swatch.Text
