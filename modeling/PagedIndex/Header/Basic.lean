import PagedIndex.Header.Pointers
import PagedIndex.Text.Basic

/-!
# File headers

The first block of a file holds its fixed parameters at these offsets.

```text
0    the tag I                      58   key length, two digits; a letter stands for tens from 100
1    the four pointers              64   fixed record length, five digits
41   block size, five digits        98   version, two digits
54   L                              100  end of record
55   T if the text name is relative 101  text name
56   D if duplicates are allowed
57   record kind
```

A modern text name ends with an end of record; a legacy one is padded with blanks up to offset 165.

## Main definitions

* `Header.encode` — the first block of a new file.
* `Header.parse` — reads and checks the front of a file.
-/

namespace PagedIndex

/-- The fixed parameters of a file. -/
structure Header where
  version : Nat
  blockSize : Nat
  keyLength : Nat
  /-- Whether one key may stand for several record positions. -/
  duplicates : Bool
  /-- Record length of a file whose records are all of one length. -/
  fixedRecordLength : Option Nat
  /-- Name of the record file as it is stored. -/
  textName : String
  /-- Whether that name is relative to the directory of the index. -/
  textRelative : Bool
  deriving DecidableEq, Inhabited

namespace Header

def nameStart : Nat := 101

/-- Where a legacy text name ends. -/
def nameEnd : Nat := 165

def new (keyLength : Nat) (format : Format) : Header where
  version := format.newVersion
  blockSize := defaultBlockSize
  keyLength := keyLength
  duplicates := false
  fixedRecordLength := none
  textName := ""
  textRelative := false

def format (h : Header) : Format := Format.ofVersion h.version

def layout (h : Header) : Layout := ⟨h.keyLength, h.blockSize, h.format⟩

/-! ## Writing -/

def nameRoom (h : Header) : Nat :=
  match h.format with
  | .modern => h.blockSize - (nameStart + 1)
  | .legacy => nameEnd - nameStart

def keyLengthField (keyLength : Nat) : Bytes :=
  let tens :=
    if keyLength > 99 then UInt8.ofNat (0x41 + (keyLength - 100) / 10)
    else if keyLength > 9 then Decimal.digit (keyLength / 10)
    else blank
  [tens, Decimal.digit (keyLength % 10)]

/-- What the byte at offset 57 says of the records. -/
def recordKind (h : Header) : UInt8 :=
  match h.fixedRecordLength, h.format with
  | some _, _ => 0x53
  | none, .modern => blank
  | none, .legacy => 0x56

def nameField (h : Header) : Bytes :=
  let name := Bytes.ofText h.textName
  match h.format with
  | .modern => name ++ [endOfRecord]
  | .legacy => Bytes.resize name (nameEnd - nameStart) blank

/-- The bytes in front of the text name, with null pointers of modern form. -/
def fixedPart (h : Header) : Bytes :=
  BlockKind.header.tag :: (List.replicate 24 0
    ++ List.replicate 16 blank
    ++ Decimal.field 5 h.blockSize
    ++ List.replicate 8 blank
    ++ [0x4C, if h.textRelative then 0x54 else blank, if h.duplicates then 0x44 else blank,
        h.recordKind]
    ++ keyLengthField h.keyLength
    ++ List.replicate 4 blank
    ++ (match h.fixedRecordLength with
        | some n => Decimal.field 5 n
        | none => List.replicate 5 blank)
    ++ List.replicate 29 blank
    ++ Decimal.field 2 h.version
    ++ [endOfRecord])

/-- The first block of a new file: this header with null pointers. -/
def encode (h : Header) : Except Error Bytes := do
  if h.keyLength = 0 || h.keyLength > maxKeyLength then
    throw (.badKeyLength maxKeyLength h.keyLength)
  let name := Bytes.ofText h.textName
  if name.length > h.nameRoom || name.contains endOfRecord then throw (.invalidName h.textName)
  let body := h.fixedPart ++ h.nameField
  if h.blockSize < body.length || h.blockSize > Bytes.maxLength then throw .outOfRange
  let image := body ++ List.replicate (h.blockSize - body.length) filler
  let (image, written) := Pointers.write h.format {} image
  written
  return image

/-! ## Reading -/

/-- The value of a byte as a digit, which is taken for any byte. -/
def looseDigit (b : UInt8) : Int := (b.toNat : Int) - 0x30

def byteAt (data : Bytes) (offset : Nat) : UInt8 := (data.drop offset).headD 0

/-- The version, 0 if its last digit is blank. -/
def readVersion (data : Bytes) : Int :=
  let tens := byteAt data 98
  let ones := byteAt data 99
  if ones = blank then 0
  else looseDigit ones + if tens = blank then 0 else looseDigit tens * 10

def knownKinds (version : Int) : List UInt8 :=
  if version > 10 then []
  else if version ≥ 9 then [blank, 0x53]
  else if version ≥ 7 then [0x56, 0x53]
  else if version = 6 then [0x56, 0x46]
  else [0x44]

def readKeyLength (data : Bytes) : Int :=
  let tens := byteAt data 58
  looseDigit (byteAt data 59) +
    if tens = blank then 0
    else if 0x41 ≤ tens ∧ tens ≤ 0x5A then ((tens.toNat : Int) - 0x41) * 10 + 100
    else looseDigit tens * 10

/-- Whether blocks of this geometry can hold a tree. -/
def usable (l : Layout) : Bool :=
  minHeaderBytes ≤ l.blockSize && l.blockSize ≤ maxBlockSize && l.minBlockSize ≤ l.blockSize

def readName (l : Layout) (data : Bytes) : Except Error Bytes :=
  match l.format with
  | .modern =>
    let room := (data.take l.blockSize).drop nameStart
    if room.contains endOfRecord then .ok (room.takeWhile (· != endOfRecord))
    else .error (.corrupt .unterminatedName)
  | .legacy =>
    let field := (data.take nameEnd).drop nameStart
    .ok (field.reverse.dropWhile (· == blank)).reverse

/-- Reads the header at the front of `data`, the bytes that could be read of a first block. -/
def parse (data : Bytes) : Except Error Header := do
  if data.length < minHeaderBytes then throw (.corrupt (.headerTooShort data.length))
  let version := readVersion data
  let kind := byteAt data 57
  if byteAt data 0 != BlockKind.header.tag || byteAt data 100 != endOfRecord
      || !(knownKinds version).contains kind then
    throw (.corrupt .notHeader)
  let fixed ←
    if kind = 0x46 || kind = 0x53 then
      match Decimal.parse? ((data.drop 64).take 5) with
      | some n => pure (some n)
      | none => throw (.corrupt .unreadableRecordLength)
    else pure none
  let blockSize ←
    match Decimal.parse? ((data.drop 41).take 5) with
    | some n => pure n
    | none => throw (.corrupt .unreadableBlockSize)
  let keyLength := readKeyLength data
  if keyLength < 1 || keyLength > maxKeyLength then
    throw (.corrupt (.keyLengthOutOfRange keyLength))
  let l : Layout := ⟨keyLength.toNat, blockSize, Format.ofVersion version.toNat⟩
  if !usable l then throw (.corrupt (.unusableBlockSize blockSize keyLength.toNat))
  let name ← readName l data
  return {
    version := version.toNat
    blockSize := blockSize
    keyLength := keyLength.toNat
    duplicates := byteAt data 56 == 0x44
    fixedRecordLength := fixed
    textName := Lossy.decode name
    textRelative := byteAt data 55 == 0x54 }

end Header

end PagedIndex
