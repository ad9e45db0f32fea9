import BlockTensor.Archive.Payload

/-!
# Archives

An archive is a header and a payload. The header is the magic `TMAP`, the
version as four bytes, lowest first, and a tag for the element type. A limit
bounds the payload when saving and when loading. A stored file adds nothing to
the bytes; its size is checked before its header.
-/

namespace BlockTensor.Archive

inductive Fault where
  | missingFile
  | truncated (length : Nat)
  | badMagic (found : Bytes)
  | unsupportedVersion (found : Nat)
  | unknownTag (tag : UInt8)
  | dtypeMismatch (expected found : DType)
  | payloadTooLarge (size : Nat) (limit : UInt64)
  | malformed
  | trailingBytes (count : Nat)
  | metadata (error : Error)
  deriving DecidableEq

def magic : Bytes := [0x54, 0x4d, 0x41, 0x50]

def version : Nat := 1

def headerLength : Nat := 9

/-- The limit used where none is given: 1 GiB. -/
def defaultLimit : UInt64 := 0x40000000

def Fault.message? : Fault → Option String
  | missingFile => some "I/O error: No such file or directory (os error 2)"
  | truncated length => some s!"archive is too short ({length} bytes) to contain a header"
  | badMagic found =>
    some ("invalid magic bytes " ++ Text.numbers (found.map UInt8.toNat) ++
      ", this is not a tensor map archive")
  | unsupportedVersion found =>
    some s!"unsupported archive version {found}, this build reads version {version}"
  | unknownTag tag => some s!"unknown dtype tag {tag} in archive header"
  | dtypeMismatch expected found =>
    some ("archive contains " ++ found.name ++ " data, but " ++ expected.name ++ " was requested")
  | payloadTooLarge size limit =>
    some s!"payload of {size} bytes exceeds the configured limit of {limit} bytes"
  | malformed => none
  | trailingBytes count =>
    some s!"{count} unexpected trailing bytes after the encoded tensor map"
  | metadata error => some ("invalid metadata in archive: " ++ error.message)

def tag : DType → UInt8
  | .float32 => 1
  | .float64 => 2

def dtypeOfTag (tag : UInt8) : Except Fault DType :=
  if tag = 1 then .ok .float32
  else if tag = 2 then .ok .float64
  else .error (.unknownTag tag)

def header (dtype : DType) : Bytes :=
  magic ++ Varint.littleEndian 4 version ++ [tag dtype]

def payloadOf (dtype : DType) (bytes : Bytes) : Except Fault Bytes := do
  ensure (headerLength ≤ bytes.length) (.truncated bytes.length)
  ensure (bytes.take 4 = magic) (.badMagic (bytes.take 4))
  let foundVersion := Varint.ofLittleEndian ((bytes.drop 4).take 4)
  ensure (foundVersion = version) (.unsupportedVersion foundVersion)
  let found ← dtypeOfTag ((bytes.drop 8).headD 0)
  ensure (found = dtype) (.dtypeMismatch dtype found)
  pure (bytes.drop headerLength)

def checkSize (limit : UInt64) (size : Nat) : Except Fault Unit :=
  ensure (size ≤ limit.toNat) (.payloadTooLarge size limit)

def save (dtype : DType) (limit : UInt64) (tensor : Tensor) : Except Fault Bytes := do
  let payload := writeTensor (.ofTensor tensor)
  checkSize limit payload.length
  pure (header dtype ++ payload)

def decode (dtype : DType) (payload : Bytes) : Except Fault Tensor :=
  match readTensor dtype payload with
  | none => .error .malformed
  | some (record, rest) => do
    ensure (rest = []) (.trailingBytes rest.length)
    record.tensor.mapError .metadata

def load (dtype : DType) (limit : UInt64) (bytes : Bytes) : Except Fault Tensor := do
  let payload ← payloadOf dtype bytes
  checkSize limit payload.length
  decode dtype payload

abbrev File := Option Bytes

/-- Saves to a file, which is replaced on success and kept on failure. -/
def saveFile (dtype : DType) (limit : UInt64) (tensor : Tensor) (file : File) :
    Except Fault Unit × File :=
  match save dtype limit tensor with
  | .ok bytes => (.ok (), some bytes)
  | .error fault => (.error fault, file)

/-- Loads from a file. Its size less the header is checked first. -/
def loadFile (dtype : DType) (limit : UInt64) : File → Except Fault Tensor
  | none => .error .missingFile
  | some bytes => do
    checkSize limit (bytes.length - headerLength)
    load dtype limit bytes

end BlockTensor.Archive
