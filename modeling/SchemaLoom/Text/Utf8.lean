import SchemaLoom.Text.Quoted

/-! Strict reading of UTF-8, with the exact place and reason of the first fault. -/

namespace SchemaLoom

inductive Utf8Reason where
  | invalidStart
  | invalidContinuation
  | unexpectedEnd
deriving DecidableEq

def Utf8Reason.message : Utf8Reason → String
  | .invalidStart => "invalid start byte"
  | .invalidContinuation => "invalid continuation byte"
  | .unexpectedEnd => "unexpected end of data"

/-- The faulty bytes start at `position`: a lead byte and the continuation bytes that fit it. -/
structure Utf8Fault where
  position : Nat
  lead : UInt8
  continuations : Nat
  reason : Utf8Reason
deriving DecidableEq

def Utf8Fault.message (fault : Utf8Fault) : String :=
  let place :=
    if fault.continuations = 0 then
      "byte 0x" ++ String.ofList (hexDigits 2 fault.lead.toNat) ++ " in position "
        ++ toString fault.position
    else
      "bytes in position " ++ toString fault.position ++ "-"
        ++ toString (fault.position + fault.continuations)
  "'utf-8' codec can't decode " ++ place ++ ": " ++ fault.reason.message

namespace Utf8

/-- What a lead byte asks for: the first bits of the character, the range of the next byte, and the
number of continuation bytes. -/
structure Lead where
  bits : Nat
  low : Nat
  high : Nat
  count : Nat

/-- The second byte has a narrower range where a wide one would admit overlong forms, surrogates or
numbers above the last character. -/
def lead? (b : Nat) : Option Lead :=
  if b < 0x80 then some ⟨b, 0, 0, 0⟩
  else if b < 0xc2 then none
  else if b < 0xe0 then some ⟨b - 0xc0, 0x80, 0xbf, 1⟩
  else if b < 0xf0 then
    some ⟨b - 0xe0, if b = 0xe0 then 0xa0 else 0x80, if b = 0xed then 0x9f else 0xbf, 2⟩
  else if b < 0xf5 then
    some ⟨b - 0xf0, if b = 0xf0 then 0x90 else 0x80, if b = 0xf4 then 0x8f else 0xbf, 3⟩
  else none

/-- Read the continuation bytes of one character. A fault tells how many of them were good. -/
def continuations (bits low high taken : Nat) : Nat → List UInt8 → Except (Nat × Utf8Reason) Nat
  | 0, _ => .ok bits
  | _ + 1, [] => .error (taken, .unexpectedEnd)
  | count + 1, b :: rest =>
    if low ≤ b.toNat ∧ b.toNat ≤ high then
      continuations (64 * bits + (b.toNat - 0x80)) 0x80 0xbf (taken + 1) count rest
    else .error (taken, .invalidContinuation)

def decodeFrom (position : Nat) : List UInt8 → Except Utf8Fault (List Char)
  | [] => .ok []
  | b :: rest =>
    match lead? b.toNat with
    | none => .error ⟨position, b, 0, .invalidStart⟩
    | some lead =>
      match continuations lead.bits lead.low lead.high 0 lead.count rest with
      | .error (taken, reason) => .error ⟨position, b, taken, reason⟩
      | .ok code => do
        let chars ← decodeFrom (position + 1 + lead.count) (rest.drop lead.count)
        return Char.ofNat code :: chars
termination_by bytes => bytes.length
decreasing_by simp only [List.length_drop, List.length_cons]; omega

def decode (bytes : List UInt8) : Except Utf8Fault (List Char) := decodeFrom 0 bytes

end Utf8

end SchemaLoom
