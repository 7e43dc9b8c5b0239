/-! # Fingerprints: BLAKE3 of a text, in hexadecimal

A text is cut into chunks of 1024 bytes and a chunk into blocks of 64. Blocks are chained inside a
chunk, and chunks are the leaves of a binary tree whose left subtree is always full. -/

namespace EntityFlow.Fingerprint

abbrev Chain := Vector UInt32 8

abbrev Words := Vector UInt32 16

def iv : Chain := #v[0x6A09E667, 0xBB67AE85, 0x3C6EF372, 0xA54FF53A,
  0x510E527F, 0x9B05688C, 0x1F83D9AB, 0x5BE0CD19]

def chunkStart : UInt32 := 1
def chunkEnd : UInt32 := 2
def parentFlag : UInt32 := 4
def rootFlag : UInt32 := 8

def rotateRight (word count : UInt32) : UInt32 := (word >>> count) ||| (word <<< (32 - count))

/-- Mix two message words into one column or diagonal of the state. -/
def mix (s : Words) (a b c d : Fin 16) (x y : UInt32) : Words :=
  let s := s.set a (s[a] + s[b] + x)
  let s := s.set d (rotateRight (s[d] ^^^ s[a]) 16)
  let s := s.set c (s[c] + s[d])
  let s := s.set b (rotateRight (s[b] ^^^ s[c]) 12)
  let s := s.set a (s[a] + s[b] + y)
  let s := s.set d (rotateRight (s[d] ^^^ s[a]) 8)
  let s := s.set c (s[c] + s[d])
  s.set b (rotateRight (s[b] ^^^ s[c]) 7)

/-- One round: the four columns, then the four diagonals. -/
def mixRound (s m : Words) : Words :=
  let s := mix s 0 4 8 12 m[0] m[1]
  let s := mix s 1 5 9 13 m[2] m[3]
  let s := mix s 2 6 10 14 m[4] m[5]
  let s := mix s 3 7 11 15 m[6] m[7]
  let s := mix s 0 5 10 15 m[8] m[9]
  let s := mix s 1 6 11 12 m[10] m[11]
  let s := mix s 2 7 8 13 m[12] m[13]
  mix s 3 4 9 14 m[14] m[15]

/-- The order in which the next round reads the message words. -/
def permute (m : Words) : Words :=
  #v[m[2], m[6], m[3], m[10], m[7], m[0], m[4], m[13],
    m[1], m[11], m[12], m[5], m[9], m[14], m[15], m[8]]

def rounds : Nat → Words → Words → Words
  | 0, s, _ => s
  | n + 1, s, m => rounds n (mixRound s m) (permute m)

/-- What remains to be compressed once the place of a block in the tree is known. -/
structure Pending where
  chain : Chain
  block : Words
  counter : Nat
  length : UInt32
  flags : UInt32

def Pending.compress (p : Pending) (extra : UInt32) : Chain :=
  let h := p.chain
  let start : Words := #v[h[0], h[1], h[2], h[3], h[4], h[5], h[6], h[7],
    iv[0], iv[1], iv[2], iv[3],
    UInt32.ofNat p.counter, UInt32.ofNat (p.counter >>> 32), p.length, p.flags ||| extra]
  let s := rounds 7 start p.block
  Vector.ofFn fun i : Fin 8 => s[i.val] ^^^ s[i.val + 8]

/-- The little-endian word at byte `start`; bytes at or past `stop` count as zero. -/
def wordAt (bytes : ByteArray) (start stop : Nat) : UInt32 :=
  let byte (i : Nat) : UInt32 :=
    if start + i < stop then (bytes[start + i]?.getD 0).toUInt32 else 0
  byte 0 ||| (byte 1 <<< 8) ||| (byte 2 <<< 16) ||| (byte 3 <<< 24)

def wordsAt (bytes : ByteArray) (start stop : Nat) : Words :=
  Vector.ofFn fun i => wordAt bytes (start + 4 * i.val) stop

/-- The last block of the chunk from `start` to `stop`, all earlier blocks chained. -/
def chunk (bytes : ByteArray) (counter start stop : Nat) : Pending :=
  let earlier := (stop - start - 1) / 64
  let flagsOf (i : Nat) : UInt32 := if i = 0 then chunkStart else 0
  let chain := (List.range earlier).foldl
    (fun chain i =>
      Pending.compress ⟨chain, wordsAt bytes (start + 64 * i) stop, counter, 64, flagsOf i⟩ 0)
    iv
  ⟨chain, wordsAt bytes (start + 64 * earlier) stop, counter,
    UInt32.ofNat (stop - start - 64 * earlier), flagsOf earlier ||| chunkEnd⟩

def parent (left right : Chain) : Pending :=
  ⟨iv, left ++ right, 0, 64, parentFlag⟩

/-- Bytes in the left subtree: the largest power of two below `size`. -/
def leftSize (size : Nat) : Nat := 1 <<< Nat.log2 (size - 1)

theorem leftSize_lt {size : Nat} (large : 1024 < size) : leftSize size < size := by
  have := Nat.log2_self_le (n := size - 1) (by omega)
  rw [leftSize, Nat.one_shiftLeft]
  omega

theorem leftSize_pos (size : Nat) : 0 < leftSize size := by
  rw [leftSize, Nat.one_shiftLeft]
  exact Nat.two_pow_pos _

/-- The tree over `size` bytes from `start`. -/
def subtree (bytes : ByteArray) (start size : Nat) : Pending :=
  if _ : 1024 < size then
    let left := subtree bytes start (leftSize size)
    let right := subtree bytes (start + leftSize size) (size - leftSize size)
    parent (left.compress 0) (right.compress 0)
  else chunk bytes (start / 1024) start (start + size)
termination_by size
decreasing_by
  · exact leftSize_lt ‹1024 < size›
  · exact Nat.sub_lt (Nat.zero_lt_of_lt ‹1024 < size›) (leftSize_pos size)

def hexDigit (n : UInt32) : Char := Nat.digitChar n.toNat

/-- The bytes of a word, lowest first, as pairs of digits. -/
def hexWord (w : UInt32) : List Char :=
  [0, 8, 16, 24].flatMap fun shift : UInt32 =>
    [hexDigit ((w >>> (shift + 4)) &&& 15), hexDigit ((w >>> shift) &&& 15)]

end EntityFlow.Fingerprint

namespace EntityFlow

/-- The fingerprint of a text's UTF-8 bytes: 64 hexadecimal digits. -/
def fingerprint (text : String) : String :=
  let bytes := text.toUTF8
  let digest := (Fingerprint.subtree bytes 0 bytes.size).compress Fingerprint.rootFlag
  String.ofList (digest.toList.flatMap Fingerprint.hexWord)

end EntityFlow
