import PagedIndex.Basic

/-!
# Causes of failure

Every way a call can fail, by cause. All wording is in `Error.message`, all status codes are in
`Error.code`. That a key is missing or already there is an outcome and no error; see
`PagedIndex.Status`.

`outOfRange` stands for a call that was abandoned at an index or a bound outside its data.
-/

namespace PagedIndex

/-! ## Failures of the storage -/

/-- Failures that the operating system reports by number. -/
inductive SystemFault where
  | noEntry
  | badDescriptor
  | alreadyThere
  | notFolder
  | isFolder
  | invalidArgument
  | nameTooLong
  deriving DecidableEq

namespace SystemFault

def number : SystemFault → Nat
  | noEntry => 2
  | badDescriptor => 9
  | alreadyThere => 17
  | notFolder => 20
  | isFolder => 21
  | invalidArgument => 22
  | nameTooLong => 36

def text : SystemFault → String
  | noEntry => "No such file or directory"
  | badDescriptor => "Bad file descriptor"
  | alreadyThere => "File exists"
  | notFolder => "Not a directory"
  | isFolder => "Is a directory"
  | invalidArgument => "Invalid argument"
  | nameTooLong => "File name too long"

end SystemFault

/-- The kinds of storage failure that status codes tell apart. -/
inductive IoKind where
  | notFound
  | permissionDenied
  | other
  deriving DecidableEq

/-- Why storage refused an access. -/
inductive IoCause where
  /-- The operating system reported a number. -/
  | system (fault : SystemFault)
  /-- The storage gave a reason of its own. -/
  | described (kind : IoKind) (text : String)
  deriving DecidableEq

namespace IoCause

def kind : IoCause → IoKind
  | system .noEntry => .notFound
  | system _ => .other
  | described kind _ => kind

def message : IoCause → String
  | system fault => fault.text ++ " (os error " ++ toString fault.number ++ ")"
  | described _ text => text

end IoCause

/-! ## Rejected keys -/

/-- Why a key or a record position is not accepted. -/
inductive KeyFault where
  /-- A position does not fit its field. -/
  | positionTooLarge (value : Nat) (format : Format)
  /-- A key has more than blanks after the key length. -/
  | tooLong (length keyLength : Nat)
  /-- A key would read as the end of its block. -/
  | startsWithEndMark (mark : UInt8)
  /-- The record position to be indexed does not fit the format. -/
  | recordOutOfRange (record : Nat)
  | described (text : String)
  deriving DecidableEq

/-- The digits of a byte in base 16, two of them, after `0x`. -/
def hexByte (b : UInt8) : String :=
  let digit (n : Nat) : Char := Nat.digitChar n
  String.ofList ['0', 'x', digit (b.toNat / 16), digit (b.toNat % 16)]

def KeyFault.message : KeyFault → String
  | positionTooLarge value format =>
    s!"position {value} does not fit the " ++ format.text ++ " format"
  | tooLong length keyLength => s!"key of {length} bytes exceeds key length {keyLength}"
  | startsWithEndMark mark => "key may not start with byte " ++ hexByte mark
  | recordOutOfRange record => s!"record position {record} out of range"
  | described text => text

/-! ## Damaged files -/

/-- What is wrong with a file. -/
inductive Corruption where
  | entryPastEnd
  | sharedTooLong (shared keyLength : Nat)
  | leafWithoutEnd
  | branchTooShort
  | branchEntryPastEnd
  | branchWithoutEnd
  | slotPastEnd
  | wrongTag (kind : BlockKind) (tag : UInt8)
  | emptyImage
  | notTreeBlock (pos : BlockPos) (tag : UInt8)
  | notDeletedBlock (pos : BlockPos)
  | notSlotBlock (pos : BlockPos)
  | emptySlotBlock (pos : BlockPos)
  | headerTooShort (length : Nat)
  | notHeader
  | unreadableRecordLength
  | unreadableBlockSize
  | keyLengthOutOfRange (length : Int)
  | unusableBlockSize (blockSize keyLength : Nat)
  | unterminatedName
  | shortRead (pos : BlockPos) (got wanted : Nat)
  | linkToHeader
  | leafExpected (pos : BlockPos)
  | branchExpected (pos : BlockPos)
  | tooDeep
  | missingChild (pos : BlockPos) (child : Nat)
  | nullChild (pos : BlockPos) (child : Nat)
  | emptyLeaf (pos : BlockPos)
  | noSeparators (pos : BlockPos)
  | levelsDiffer
  | emptyTreeBlock (pos : BlockPos)
  | unevenLeaf (pos : BlockPos) (depth others : Nat)
  | outOfOrder (pos : BlockPos)
  | freeChainLoops
  | slotChainLoops
  | unaccountedBlocks (total reachable : Nat)
  | described (text : String)
  deriving DecidableEq

def Corruption.message : Corruption → String
  | entryPastEnd => "entry runs past end of block"
  | sharedTooLong shared keyLength => s!"shared prefix {shared} exceeds key length {keyLength}"
  | leafWithoutEnd => "leaf block has no end marker"
  | branchTooShort => "branch block too short"
  | branchEntryPastEnd => "branch entry runs past end of block"
  | branchWithoutEnd => "branch block has no end marker"
  | slotPastEnd => "slot entry runs past end of block"
  | wrongTag kind tag => "expected " ++ kind.text ++ " block, found tag " ++ hexByte tag
  | emptyImage => "empty block image"
  | notTreeBlock pos tag =>
    "block " ++ pos.text ++ " is not a tree block (tag " ++ hexByte tag ++ ")"
  | notDeletedBlock pos => "free chain block " ++ pos.text ++ " is not a deleted block"
  | notSlotBlock pos => "record slot chain block " ++ pos.text ++ " has the wrong tag"
  | emptySlotBlock pos => "record slot block " ++ pos.text ++ " is empty"
  | headerTooShort length =>
    s!"header block is {length} bytes, need at least " ++ toString minHeaderBytes
  | notHeader => "not an index file header"
  | unreadableRecordLength => "unreadable fixed record length"
  | unreadableBlockSize => "unreadable block size"
  | keyLengthOutOfRange length => s!"header key length {length} out of range"
  | unusableBlockSize blockSize keyLength =>
    s!"block size {blockSize} unusable for key length {keyLength}"
  | unterminatedName => "text name is not terminated"
  | shortRead pos got wanted =>
    "short read of block " ++ pos.text ++ s!": {got} of {wanted} bytes"
  | linkToHeader => "tree link points at the header block"
  | leafExpected pos => "expected a leaf at " ++ pos.text ++ ", found a branch"
  | branchExpected pos => "expected a branch at " ++ pos.text ++ ", found a leaf"
  | tooDeep => "tree is deeper than " ++ toString maxLevels ++ " levels"
  | missingChild pos child => "branch " ++ pos.text ++ s!" has no child {child}"
  | nullChild pos child => "branch " ++ pos.text ++ s!" has a null child {child}"
  | emptyLeaf pos => "leaf " ++ pos.text ++ " is empty"
  | noSeparators pos => "branch " ++ pos.text ++ " has no separators"
  | levelsDiffer => "brothers sit on different levels"
  | emptyTreeBlock pos => "tree block " ++ pos.text ++ " holds no entries"
  | unevenLeaf pos depth others =>
    "leaf " ++ pos.text ++ s!" sits at depth {depth}, others at {others}"
  | outOfOrder pos => "entries out of order in block " ++ pos.text
  | freeChainLoops => "deleted-block chain loops"
  | slotChainLoops => "record slot chain loops"
  | unaccountedBlocks total reachable =>
    s!"{total} blocks in the file but {reachable} reachable"
  | described text => text

/-! ## Broken invariants -/

/-- Rules of the library itself that turned out broken, and limits it does not go past. -/
inductive InternalFault where
  | blockTooLong (length blockSize : Nat)
  | noHeldBlock (role : Role)
  | noEvictableBuffer
  | emptyBuffer
  | unregisteredBuffer
  | sizeLimit
  | freeingHeader
  | noEntry (index : Nat) (pos : BlockPos)
  | noPathToSeparator
  | insertAtSeparator
  | unsplittableLeaf (entries fitting : Nat)
  | unsplittableBranch
  | described (text : String)
  deriving DecidableEq

def InternalFault.message : InternalFault → String
  | blockTooLong length blockSize =>
    s!"encoded block of {length} bytes does not fit {blockSize} byte blocks"
  | noHeldBlock role => "no block held for " ++ role.text
  | noEvictableBuffer => "no unpinned buffer to evict"
  | emptyBuffer => "buffer slot is empty"
  | unregisteredBuffer => "dirty buffer of an unregistered file"
  | sizeLimit => "index file reached its size limit"
  | freeingHeader => "attempt to free the header block"
  | noEntry index pos => s!"no entry at index {index} of " ++ pos.text
  | noPathToSeparator => "separator hit without a path"
  | insertAtSeparator => "insert position is a separator"
  | unsplittableLeaf entries fitting => s!"cannot split a leaf of {entries} entries at {fitting}"
  | unsplittableBranch => "branch split on fewer than two entries"
  | described text => text

/-! ## Errors -/

/-- Why a call failed. -/
inductive Error where
  /-- The handle is not an open file. -/
  | invalidHandle
  | invalidKey (cause : KeyFault)
  | badKeyLength (expected found : Nat)
  | badRecordLength (expected found : Nat)
  /-- The file allows duplicate keys and the caller asked to forbid them. -/
  | duplicatesForbidden
  | corrupt (cause : Corruption)
  | noMemory
  | readOnly
  /-- A text name that cannot be stored. -/
  | invalidName (name : String)
  | io (cause : IoCause)
  /-- The lock of the file was not taken or not given back. -/
  | lock (cause : IoCause)
  | internal (cause : InternalFault)
  /-- An index or a bound lay outside its data, and the call was abandoned. -/
  | outOfRange
  deriving DecidableEq

namespace Error

def message : Error → String
  | invalidHandle => "handle is not an open index file"
  | invalidKey cause => "invalid key: " ++ cause.message
  | badKeyLength expected found => s!"wrong key length: expected {expected}, found {found}"
  | badRecordLength expected found =>
    s!"wrong record length: expected {expected}, found {found}"
  | duplicatesForbidden => "index file was built with duplicate keys"
  | corrupt cause => "index file is invalid: " ++ cause.message
  | noMemory => "unable to allocate memory"
  | readOnly => "attempted write on read-only index"
  | invalidName name => "invalid name: " ++ name
  | io cause => "I/O error: " ++ cause.message
  | lock cause => "unable to lock index file: " ++ cause.message
  | internal cause => "internal error: " ++ cause.message
  | outOfRange => "index out of range"

/-- The negative status of an error. -/
def code : Error → Int
  | invalidHandle => -21
  | invalidName _ => -26
  | corrupt _ => -33
  | badKeyLength _ _ => -34
  | badRecordLength _ _ => -35
  | invalidKey _ => -36
  | noMemory => -37
  | lock _ => -41
  | readOnly => -53
  | duplicatesForbidden => -60
  | internal _ => -68
  | io cause =>
    match cause.kind with
    | .notFound => -22
    | .permissionDenied => -23
    | .other => -38
  | outOfRange => -99

def isInternal : Error → Bool
  | internal _ => true
  | _ => false

end Error

/-! ## Computations that keep what they did

All stateful calls end with a value or with an error, and in both cases with the state as it is by
then. -/

/-- Runs `x` to its value or its error; what it did stays done. -/
def attempt {ε σ α : Type} (x : EStateM ε σ α) : EStateM ε σ (Except ε α) := fun s =>
  match x s with
  | .ok a s => .ok (.ok a) s
  | .error e s => .ok (.error e) s

def settle {ε σ α : Type} (r : Except ε α) : EStateM ε σ α := fun s =>
  match r with
  | .ok a => .ok a s
  | .error e => .error e s

def firstError {ε α : Type} (first : Except ε Unit) (second : Except ε α) : Except ε α :=
  match first with
  | .ok () => second
  | .error e => .error e

end PagedIndex
