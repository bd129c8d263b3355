/-!
# Preferred instances

Powers of natural numbers and the comparison of byte strings are those of the core library, whatever
other instances a module sees. So a definition means the same wherever it is read.
-/

namespace ImplicitTiling

attribute [instance (high), default_instance (high + 1)] instPowNat

attribute [instance (high)] ByteArray.instDecidableEq

end ImplicitTiling
