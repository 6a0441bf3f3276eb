import Swatch.Text.Quoted

/-!
Text from octets. `decode` reads UTF-8 and says where and why octets are no text; `unifyNewlines`
writes every line end as one newline.
-/

namespace Swatch.Text.Utf8

inductive Fault
  | invalidStart
  | invalidContinuation
  | unexpectedEnd
  deriving DecidableEq, Repr

def Fault.message : Fault → String
  | .invalidStart => "invalid start byte"
  | .invalidContinuation => "invalid continuation byte"
  | .unexpectedEnd => "unexpected end of data"

/-- A malformed sequence: the `length` octets from `offset` on, of which `first` is the first. -/
structure Malformed where
  fault : Fault
  first : UInt8
  offset : Nat
  length : Nat
  deriving DecidableEq, Repr

def Malformed.message (m : Malformed) : String :=
  let place :=
    if m.length = 1 then
      "byte 0x" ++ String.ofList (hexPadded 2 m.first.toNat) ++ " in position " ++ toString m.offset
    else
      "bytes in position " ++ toString m.offset ++ "-" ++ toString (m.offset + m.length - 1)
  "'utf-8' codec can't decode " ++ place ++ ": " ++ m.fault.message

def isContinuation (b : UInt8) : Bool :=
  0x80 ≤ b && b < 0xC0

def payload (b : UInt8) : Nat :=
  b.toNat - 0x80

/-- The octets that may come second after a given first octet, in a sequence of more than one. -/
def isSecond (first second : UInt8) : Bool :=
  isContinuation second &&
    (if first == 0xE0 then 0xA0 ≤ second
     else if first == 0xED then second < 0xA0
     else if first == 0xF0 then 0x90 ≤ second
     else if first == 0xF4 then second < 0x90
     else true)

def sequenceLength? (first : UInt8) : Option Nat :=
  if first < 0x80 then some 1
  else if first < 0xC2 then none
  else if first < 0xE0 then some 2
  else if first < 0xF0 then some 3
  else if first < 0xF5 then some 4
  else none

/-- Checks the octets after the first of a sequence that needs `needed` of them: either their
payloads are all there, or the fault and the number of octets it covers are known. -/
def continuation (first : UInt8) (needed : Nat) (rest : List UInt8) :
    Except (Fault × Nat) (List Nat) :=
  go needed 0 rest
where
  go : (left seen : Nat) → List UInt8 → Except (Fault × Nat) (List Nat)
    | 0, _, _ => .ok []
    | _ + 1, seen, [] => .error (.unexpectedEnd, seen + 1)
    | left + 1, seen, b :: rest =>
      if (if seen = 0 then isSecond first b else isContinuation b) then
        (payload b :: ·) <$> go left (seen + 1) rest
      else .error (.invalidContinuation, seen + 1)

def codePoint (length : Nat) (first : UInt8) (payloads : List Nat) : Nat :=
  let lead :=
    match length with
    | 1 => first.toNat
    | 2 => first.toNat - 0xC0
    | 3 => first.toNat - 0xE0
    | _ => first.toNat - 0xF0
  payloads.foldl (fun n p => 64 * n + p) lead

/-- Reads octets from a given offset on; `skip` counts the octets of the sequence read last. -/
def decodeFrom : (offset skip : Nat) → List UInt8 → Except Malformed (List Char)
  | _, _, [] => .ok []
  | offset, skip + 1, _ :: rest => decodeFrom (offset + 1) skip rest
  | offset, 0, first :: rest =>
    match sequenceLength? first with
    | none => .error ⟨.invalidStart, first, offset, 1⟩
    | some length =>
      match continuation first (length - 1) rest with
      | .error (fault, covered) => .error ⟨fault, first, offset, covered⟩
      | .ok payloads =>
        (Char.ofNat (codePoint length first payloads) :: ·) <$>
          decodeFrom (offset + 1) (length - 1) rest

def decode (octets : List UInt8) : Except Malformed (List Char) :=
  decodeFrom 0 0 octets

end Swatch.Text.Utf8

namespace Swatch.Text

def unifyNewlines : List Char → List Char
  | [] => []
  | '\r' :: '\n' :: rest => '\n' :: unifyNewlines rest
  | '\r' :: rest => '\n' :: unifyNewlines rest
  | c :: rest => c :: unifyNewlines rest

end Swatch.Text
