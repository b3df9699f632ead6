import SerialManifest.Archive.Basic
import SerialManifest.Text.Utf8

namespace SerialManifest

/-- The low `width` bytes of a number, the lowest first. -/
def littleEndian : (width : Nat) → Nat → List UInt8
  | 0, _ => []
  | width + 1, n => UInt8.ofNat n :: littleEndian width (n / 256)

namespace Checksum

def bit (rest : UInt32) : UInt32 :=
  if rest &&& 1 = 1 then (rest >>> 1) ^^^ 0xEDB88320 else rest >>> 1

def byte (rest : UInt32) (next : UInt8) : UInt32 :=
  Nat.repeat bit 8 (rest ^^^ next.toUInt32)

/-- The cyclic redundancy check of a byte string, 32 bits wide. -/
def ofBytes (data : List UInt8) : UInt32 :=
  data.foldl byte 0xFFFFFFFF ^^^ 0xFFFFFFFF

end Checksum

namespace ArchiveEntry

/-- The flags of an entry: names are UTF-8, and encrypted data is marked as such. -/
def flags (entry : ArchiveEntry) : Nat :=
  if entry.fault = some .encrypted then 0x801 else 0x800

/-- How data is packed: 0 for not at all, 12 for a method that is not supported. -/
def method (entry : ArchiveEntry) : Nat :=
  if entry.fault = some .unsupportedMethod then 12 else 0

def checksum (entry : ArchiveEntry) : UInt32 :=
  if entry.fault = some .badChecksum then Checksum.ofBytes entry.data ^^^ 1 else Checksum.ofBytes entry.data

/-- What is said of an entry both before its data and in the directory. The time of every entry is the
beginning of 1980, the first that a header can name. -/
def header (entry : ArchiveEntry) : List UInt8 :=
  let size := littleEndian 4 entry.data.length
  littleEndian 2 20 ++ littleEndian 2 entry.flags ++ littleEndian 2 entry.method ++ littleEndian 2 0
    ++ littleEndian 2 0x21 ++ littleEndian 4 entry.checksum.toNat ++ size ++ size
    ++ littleEndian 2 (Text.Utf8.encode entry.name).length ++ littleEndian 2 0

def record (entry : ArchiveEntry) : List UInt8 :=
  [0x50, 0x4B, 3, 4] ++ entry.header ++ Text.Utf8.encode entry.name ++ entry.data

/-- What the directory says of an entry whose record starts at `offset`. -/
def listing (entry : ArchiveEntry) (offset : Nat) : List UInt8 :=
  [0x50, 0x4B, 1, 2] ++ littleEndian 2 20 ++ entry.header ++ littleEndian 10 0 ++ littleEndian 4 offset
    ++ Text.Utf8.encode entry.name

end ArchiveEntry

namespace Archive

def directoryFrom : Nat → List ArchiveEntry → List UInt8
  | _, [] => []
  | offset, entry :: rest => entry.listing offset ++ directoryFrom (offset + entry.record.length) rest

/-- An archive as bytes: the entries, each behind a header of its own, the directory, and a record that says
where the directory starts. -/
def encode (archive : Archive) : List UInt8 :=
  let records := archive.entries.flatMap ArchiveEntry.record
  let directory := directoryFrom 0 archive.entries
  let count := littleEndian 2 archive.entries.length
  records ++ directory ++ [0x50, 0x4B, 5, 6] ++ littleEndian 4 0 ++ count ++ count
    ++ littleEndian 4 directory.length ++ littleEndian 4 records.length ++ littleEndian 2 0

end Archive

end SerialManifest
