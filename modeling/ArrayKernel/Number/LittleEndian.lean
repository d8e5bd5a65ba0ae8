/-!
Numbers as bytes, the lowest byte first.
-/

namespace ArrayKernel.Number

def natOfBytes (bytes : List UInt8) : Nat := bytes.foldr (fun b n => b.toNat + 256 * n) 0

def wordBytes (w : UInt32) : List UInt8 :=
  [w.toUInt8, (w >>> 8).toUInt8, (w >>> 16).toUInt8, (w >>> 24).toUInt8]

def wordOfBytes (bytes : List UInt8) : UInt32 :=
  bytes.foldr (fun b w => (w <<< 8) ||| b.toUInt32) 0

def bytesOfWords (words : List UInt32) : Array UInt8 := (words.flatMap wordBytes).toArray

def cut (width : Nat) (bytes : Array UInt8) : List (List UInt8) :=
  (List.range (bytes.size / width)).map fun i => (bytes.extract (i * width) (i * width + width)).toList

def wordsOfBytes (bytes : Array UInt8) : List UInt32 := (cut 4 bytes).map wordOfBytes

end ArrayKernel.Number
