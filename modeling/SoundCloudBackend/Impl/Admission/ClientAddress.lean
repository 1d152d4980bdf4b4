import Mathlib.Data.List.Basic

/-!
# The address of the client

`client_address` of `api/src/common/admission.rs`: behind a trusted peer the
`X-Forwarded-For` lines are read from the right, and the first address that is not a
trusted proxy is the client's. A line of a header is any sequence of bytes; only lines of
visible ASCII are text (`HeaderValue::to_str`). `parseAddress` is `str::parse::<IpAddr>`
of the standard library, on the bytes of such a text.
-/

namespace SC.Impl.Admission

inductive IpAddr where
  | v4 (bits : BitVec 32)
  | v6 (bits : BitVec 128)
  deriving DecidableEq

inductive IpNet where
  | v4 (bits : BitVec 32) (prefixLen : Fin 33)
  | v6 (bits : BitVec 128) (prefixLen : Fin 129)
  deriving DecidableEq

def IpNet.contains : IpNet → IpAddr → Bool
  | .v4 net len, .v4 bits => net >>> (32 - len.val) = bits >>> (32 - len.val)
  | .v6 net len, .v6 bits => net >>> (128 - len.val) = bits >>> (128 - len.val)
  | _, _ => false

/-! ## Parsing -/

end SC.Impl.Admission
