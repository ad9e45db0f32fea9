import BlockTensor.Archive.Record
import BlockTensor.Archive.Varint

/-!
# Archive payloads

The byte form of a record. Texts and lists are preceded by their length;
structures are their fields in order. Writers give bytes. Readers give a value
and the bytes after it, or nothing if the bytes do not start with a written
value.
-/

namespace BlockTensor.Archive

abbrev Reader (α : Type) := Bytes → Option (α × Bytes)

def writeList {α : Type} (write : α → Bytes) (items : List α) : Bytes :=
  Varint.write items.length ++ items.flatMap write

def readMany {α : Type} (read : Reader α) : Nat → Reader (List α)
  | 0, bytes => some ([], bytes)
  | count + 1, bytes => do
    let (item, bytes) ← read bytes
    let (items, bytes) ← readMany read count bytes
    some (item :: items, bytes)

def readList {α : Type} (read : Reader α) : Reader (List α) := fun bytes => do
  let (count, bytes) ← Varint.read? .word64 bytes
  readMany read count bytes

def writeText (text : String) : Bytes :=
  Varint.write text.utf8ByteSize ++ text.toUTF8.data.toList

def readText : Reader String := fun bytes => do
  let (count, bytes) ← Varint.read? .word64 bytes
  let first := bytes.take count
  if first.length = count then
    let text ← String.fromUTF8? ⟨first.toArray⟩
    some (text, bytes.drop count)
  else
    none

def writeLabelValue (value : LabelValue) : Bytes := Varint.write (Varint.zigzag value.toInt)

def readLabelValue : Reader LabelValue := fun bytes => do
  let (n, bytes) ← Varint.read? .word32 bytes
  some (Int32.ofInt (Varint.unzigzag n), bytes)

def writeLabels (record : LabelsRecord) : Bytes :=
  writeList writeText record.names ++ writeList writeLabelValue record.values

def readLabels : Reader LabelsRecord := fun bytes => do
  let (names, bytes) ← readList readText bytes
  let (values, bytes) ← readList readLabelValue bytes
  some (⟨names, values⟩, bytes)

def writeSingle (x : Single) : Bytes := Varint.littleEndian 4 x.bits.toNat
def writeDouble (x : Double) : Bytes := Varint.littleEndian 8 x.bits.toNat

def readSingle : Reader Single := fun bytes => do
  let (n, bytes) ← Varint.readFixed? 4 bytes
  some (⟨UInt32.ofNat n⟩, bytes)

def readDouble : Reader Double := fun bytes => do
  let (n, bytes) ← Varint.readFixed? 8 bytes
  some (⟨UInt64.ofNat n⟩, bytes)

def writeValues : Values → Bytes
  | .float32 a => writeList Varint.write a.shape ++ writeList writeSingle a.data
  | .float64 a => writeList Varint.write a.shape ++ writeList writeDouble a.data

def readValues (dtype : DType) : Reader Values := fun bytes => do
  let (shape, bytes) ← readList (Varint.read? .word64) bytes
  match dtype with
  | .float32 =>
    let (data, bytes) ← readList readSingle bytes
    some (.float32 ⟨shape, data⟩, bytes)
  | .float64 =>
    let (data, bytes) ← readList readDouble bytes
    some (.float64 ⟨shape, data⟩, bytes)

mutual
def writeBlock : BlockRecord → Bytes
  | ⟨values, samples, components, properties, gradients⟩ =>
    writeValues values ++ writeLabels samples ++ writeList writeLabels components ++
      writeLabels properties ++ Varint.write gradients.length ++ writeGradients gradients
def writeGradients : GradientRecords → Bytes
  | .nil => []
  | .cons parameter gradient rest =>
    writeText parameter ++ writeBlock gradient ++ writeGradients rest
end

def readGradient (read : Reader BlockRecord) : Reader (String × BlockRecord) := fun bytes => do
  let (parameter, bytes) ← readText bytes
  let (gradient, bytes) ← read bytes
  some ((parameter, gradient), bytes)

/-- Reads a block whose gradients are nested less than `depth` deep. -/
def readBlock (dtype : DType) : (depth : Nat) → Reader BlockRecord
  | 0, _ => none
  | depth + 1, bytes => do
    let (values, bytes) ← readValues dtype bytes
    let (samples, bytes) ← readLabels bytes
    let (components, bytes) ← readList readLabels bytes
    let (properties, bytes) ← readLabels bytes
    let (gradients, bytes) ← readList (readGradient (readBlock dtype depth)) bytes
    some (⟨values, samples, components, properties, .ofList gradients⟩, bytes)

def writeTensor (record : TensorRecord) : Bytes :=
  writeLabels record.keys ++ writeList writeBlock record.blocks

/-- Every level of gradients takes at least one byte, so the number of bytes
bounds the depth. -/
def readTensor (dtype : DType) : Reader TensorRecord := fun bytes => do
  let depth := bytes.length + 1
  let (keys, bytes) ← readLabels bytes
  let (blocks, bytes) ← readList (readBlock dtype depth) bytes
  some (⟨keys, blocks⟩, bytes)

end BlockTensor.Archive
