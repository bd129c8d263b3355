import ImplicitTiling.Error
import ImplicitTiling.Octets

/-!
# Text files
-/

namespace ImplicitTiling

/-- The octets of a text file; bytes that are not UTF-8 are refused. -/
def fileText (bytes : ByteArray) : Except FileError (List UInt8) :=
  if (String.fromUTF8? bytes).isSome then .ok (Octets.unpack bytes)
  else .error (.invalidData "the file is not valid UTF-8")

end ImplicitTiling
