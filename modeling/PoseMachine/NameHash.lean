/-!
The 32-bit hash that names parameters, clips, states and machines once their texts are gone.
-/

namespace PoseMachine

/-- One octet folded into a hash. -/
def hashOctet (h : UInt32) (b : UInt8) : UInt32 :=
  (h ^^^ b.toUInt32) * 0x01000193

/-- The hash of a name: its UTF-8 octets folded in order from a fixed start. -/
def nameHash (name : String) : UInt32 :=
  name.toUTF8.data.foldl hashOctet 0x811c9dc5

end PoseMachine
