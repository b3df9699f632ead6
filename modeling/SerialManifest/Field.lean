import SerialManifest.AccessFlags
import SerialManifest.Descriptor

namespace SerialManifest

structure Field where
  name : String
  descriptor : String
  access : AccessFlags
deriving DecidableEq, Repr

def Field.typeName (field : Field) : String :=
  Descriptor.typeName field.descriptor

end SerialManifest
