namespace Bisection.View

structure HashState where
  v0 : UInt64
  v1 : UInt64
  v2 : UInt64
  v3 : UInt64

namespace HashState

def initial : HashState := ⟨0x736f6d6570736575, 0x646f72616e646f6d, 0x6c7967656e657261, 0x7465646279746573⟩

def rotate (x : UInt64) (n : UInt64) : UInt64 := (x <<< n) ||| (x >>> (64 - n))

def round (s : HashState) : HashState :=
  let v0 := s.v0 + s.v1
  let v2 := s.v2 + s.v3
  let v1 := rotate s.v1 13 ^^^ v0
  let v3 := rotate s.v3 16 ^^^ v2
  let v0 := rotate v0 32
  let v2 := v2 + v1
  let v0 := v0 + v3
  let v1 := rotate v1 17 ^^^ v2
  let v3 := rotate v3 21 ^^^ v0
  ⟨v0, v1, rotate v2 32, v3⟩

def absorb (s : HashState) (word : UInt64) : HashState :=
  let s := { s with v3 := s.v3 ^^^ word }.round
  { s with v0 := s.v0 ^^^ word }

def finish (s : HashState) : UInt64 :=
  let s := { s with v2 := s.v2 ^^^ 0xff }.round.round.round
  s.v0 ^^^ s.v1 ^^^ s.v2 ^^^ s.v3

end HashState

def littleEndian (bytes : List UInt8) : UInt64 :=
  bytes.foldr (fun b w => (w <<< 8) ||| b.toUInt64) 0

/-- Takes in full words; the last one holds the remaining bytes below the length. -/
def absorbAll (length : UInt64) (s : HashState) (bytes : List UInt8) : HashState :=
  if h : 8 ≤ bytes.length then
    have : (bytes.drop 8).length < bytes.length := by simp only [List.length_drop]; omega
    absorbAll length (s.absorb (littleEndian (bytes.take 8))) (bytes.drop 8)
  else s.absorb ((length <<< 56) ||| littleEndian bytes)
termination_by bytes.length

def hashText (s : String) : UInt64 :=
  let bytes := s.toUTF8.toList ++ [0xff]
  (absorbAll bytes.length.toUInt64 .initial bytes).finish

end Bisection.View
