import Schemata.Fault

/-! Property paths. A path is keys and indices, keys separated by dots, indices either in brackets
or as canonical decimal numbers between dots: `address.email`, `items.0.name` and `items[0].name`. A
bracket takes one to nine digits; a segment of one to nine digits without a leading zero is an
index, any other segment is a key. -/
namespace Schemata.Path

inductive Step where
  | key (name : Text)
  | index (n : Nat)
deriving DecidableEq

namespace Step

def isKey : Step → Bool
  | key _ => true
  | index _ => false

def asKey : Step → Except Fault Text
  | key name => .ok name
  | index _ => .error .stepNotKey

def asIndex : Step → Except Fault Nat
  | key _ => .error .stepNotIndex
  | index n => .ok n

end Step

def isIndexText (t : Text) : Bool := !t.isEmpty && t.length ≤ 9 && t.all Text.isDigit

def segmentStep (segment : Text) : Step :=
  if isIndexText segment && (segment.length == 1 || segment.head? != some 48) then
    .index segment.toNat
  else .key segment

/-- Bytes that end a segment: a dot or an opening bracket. -/
def endsSegment (b : UInt8) : Bool := b == 46 || b == 91

/-- The text behind the dot that it starts with, if it starts with one. -/
def dropDot : Text → Text
  | 46 :: t => t
  | t => t

theorem length_dropDot_le (t : Text) : (dropDot t).length ≤ t.length := by
  unfold dropDot
  split <;> simp

theorem length_dropWhile_le (p : UInt8 → Bool) (t : Text) :
    (t.dropWhile p).length ≤ t.length :=
  (List.dropWhile_sublist p).length_le

/-- The steps of `t`, the rest of `path`. -/
def readSteps (path : Text) : Text → Except Fault (List Step)
  | [] => .ok []
  | b :: t =>
    if b = 91 then
      match _closing : t.dropWhile (· != 93) with
      | [] => .error (.unclosedBracket path)
      | _ :: rest =>
        let inner : Text := t.takeWhile (· != 93)
        if isIndexText inner then
          (readSteps path (dropDot rest)).map (.index inner.toNat :: ·)
        else .error (.malformedIndex inner)
    else if b = 46 then .error (.emptySegment path)
    else
      let segment := b :: t.takeWhile fun c => !endsSegment c
      (readSteps path (dropDot (t.dropWhile fun c => !endsSegment c))).map (segmentStep segment :: ·)
termination_by t => t.length
decreasing_by
  · have := length_dropWhile_le (· != 93) t
    have := length_dropDot_le rest
    simp only [_closing, List.length_cons] at *
    omega
  · have := length_dropWhile_le (fun c => !endsSegment c) t
    have := length_dropDot_le (t.dropWhile fun c => !endsSegment c)
    simp only [List.length_cons]
    omega

def parse (path : Text) : Except Fault (List Step) :=
  if path.isEmpty then .error .emptyPath
  else if path.head? = some 46 then .error .leadingDot
  else if path.getLast? = some 46 then .error .trailingDot
  else readSteps path path

end Schemata.Path
