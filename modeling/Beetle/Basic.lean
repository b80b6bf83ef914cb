import Mathlib.Init

/-!
# Basic — identifiers shared by the crates

Content identifiers, peer ids and byte strings are opaque to the code
modelled here: it stores, compares and passes them on, and never looks
inside. They are natural numbers and byte lists.
-/

namespace Beetle

/-- `cid::Cid`. -/
abbrev Cid := Nat

/-- `libp2p::PeerId`. -/
abbrev PeerId := Nat

/-- `message::Priority`, a signed integer passed through unchanged. -/
abbrev Priority := Int

/-- `bytes::Bytes`. -/
abbrev Bytes := List UInt8

end Beetle
