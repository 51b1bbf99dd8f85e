/-! Structural hashing: the words that trees and search threads are told apart by. -/
namespace Homoicon.Digest

def offset : UInt64 := 0xcbf29ce484222325

/-- The odd factor each step multiplies by. -/
def prime : UInt64 := 0x100000001b3

def childMask : UInt64 := 0xabcdef0123456789

def valueMask : UInt64 := 0x3141592653589793

def pairShift : UInt64 := 0x1a2b3c4d5e6f7081

def rotateLeft (x : UInt64) (places : UInt64) : UInt64 := (x <<< places) ||| (x >>> (64 - places))

def rotateRight (x : UInt64) (places : UInt64) : UInt64 := (x >>> places) ||| (x <<< (64 - places))

def mixByte (hash : UInt64) (byte : UInt8) : UInt64 := (hash ^^^ byte.toUInt64) * prime

/-- The FNV-1a hash of a text in UTF-8. -/
def ofText (text : String) : UInt64 := text.toUTF8.data.foldl mixByte offset

/-- Takes in the next child; the order of children matters. -/
def mixChild (hash child : UInt64) : UInt64 := rotateLeft (hash ^^^ childMask) 29 * prime + child

def mixValue (hash value : UInt64) : UInt64 := hash ^^^ (rotateRight (hash ^^^ valueMask) 7 + value)

def mixPair (a b : UInt64) : UInt64 := ((a + pairShift) ^^^ b) * (rotateLeft b 23 ||| 1)

end Homoicon.Digest
