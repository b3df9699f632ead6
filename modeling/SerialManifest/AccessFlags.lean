namespace SerialManifest

/-- The sixteen bits that a class or a field carries. -/
structure AccessFlags where
  bits : UInt16
deriving DecidableEq, Repr, Inhabited

namespace AccessFlags

def contains (flags : AccessFlags) (mask : UInt16) : Bool :=
  flags.bits &&& mask == mask

def isStatic (flags : AccessFlags) : Bool := flags.contains 0x0008

def isFinal (flags : AccessFlags) : Bool := flags.contains 0x0010

def isInterface (flags : AccessFlags) : Bool := flags.contains 0x0200

def isAbstract (flags : AccessFlags) : Bool := flags.contains 0x0400

def isEnum (flags : AccessFlags) : Bool := flags.contains 0x4000

end AccessFlags

end SerialManifest
