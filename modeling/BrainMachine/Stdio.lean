import BrainMachine.Codec

set_option autoImplicit false

namespace BrainMachine.Stdio
open Codec

structure Stream where
  rest : List UInt8
  eof : Bool
  deriving DecidableEq, Repr

def isspace (c : UInt8) : Bool := c = 32 || (9 ≤ c && c ≤ 13)

/-- `fscanf(fh, "%ns", buf)`: the token, or `none` when only blanks are left. -/
def scanToken (n : ℕ) (s : Stream) : Option (List UInt8) × Stream :=
  let r := s.rest.dropWhile isspace
  if r.isEmpty then (none, ⟨[], true⟩)
  else
    let tok := (r.takeWhile (fun c => !isspace c)).take n
    let left := r.drop tok.length
    (some tok, ⟨left, s.eof || (left.isEmpty && tok.length < n)⟩)

def isdigit (c : UInt8) : Bool := 48 ≤ c && c ≤ 57

def decimal (ds : List UInt8) : ℕ := ds.foldl (fun v c => v * 10 + (c.toNat - 48)) 0

/-- The conversion of `%u`: `strtoul` on 64 bits, cut to an `unsigned int`. -/
def unsignedValue (negative : Bool) (ds : List UInt8) : UInt32 :=
  let v := decimal ds
  UInt32.ofNat (if v ≥ 2 ^ 64 then 2 ^ 64 - 1 else if negative then (2 ^ 64 - v) % 2 ^ 64 else v)

/-- `fscanf(fh, "%u", &x)`; `none` when no number follows. -/
def scanUnsigned (s : Stream) : Option UInt32 × Stream :=
  let r := s.rest.dropWhile isspace
  let (negative, r) := match r with
    | c :: cs => if c = 45 then (true, cs) else if c = 43 then (false, cs) else (false, r)
    | [] => (false, [])
  let ds := r.takeWhile isdigit
  let left := r.drop ds.length
  (if ds.isEmpty then none else some (unsignedValue negative ds), ⟨left, s.eof || left.isEmpty⟩)

/-- `while (fgetc(fh) != '\n');` where `none` says that the loop never ends: at the end of
the stream `fgetc` answers EOF for ever. -/
def skipLine : List UInt8 → Option (List UInt8)
  | [] => none
  | c :: cs => if c = 10 then some cs else skipLine cs

/-- `strlen` of a buffer that holds `tok` and a terminating zero. -/
def strlen (tok : List UInt8) : ℕ := (tok.takeWhile (fun c => c ≠ 0)).length

/-- The loop of `read_word` that pulls single characters; EOF is stored as the byte 255. -/
def pullChars (buf : List UInt8) (len : ℕ) (eof : Bool) : List UInt8 → List UInt8 × Stream
  | [] => (buf.set len 255, ⟨[], true⟩)
  | c :: cs =>
    if isspace c then pullChars buf len eof cs
    else if len + 1 < 4 then pullChars (buf.set len c) (len + 1) eof cs
    else (buf.set len c, ⟨cs, eof⟩)

/-- The buffer starts out blank; the source leaves it uninitialised, which only a read that
meets EOF can show. -/
def readWord (s : Stream) : Word × Stream :=
  let (tok, t) := scanToken 4 s
  let len := match tok with
    | some tok => strlen tok
    | none => 0
  let buf := (tok.getD [] ++ [0, 0, 0, 0, 0]).take 5
  let (buf, t) := if len < 4 then pullChars buf len t.eof t.rest else (buf, t)
  (⟨buf.getD 0 0, buf.getD 1 0, buf.getD 2 0, buf.getD 3 0⟩, t)

end BrainMachine.Stdio
