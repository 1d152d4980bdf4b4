import SoundCloudBackend.Framework.Aead
import SoundCloudBackend.Framework.Codec
import SoundCloudBackend.Impl.Replication.Tombstones

/-!
# Stream tickets

`utils/stream-ticket/src/lib.rs`: the API issues a ticket for a session and a track, and
the streaming service verifies it with a ring of keys. The cipher (`ring::aead`) is the
ideal one of `SC.Vault`: the vault is part of the state, and the nonce and the ciphertext
of a sealing are inputs. Text is base64 without padding over the URL-safe alphabet, times
are in nanoseconds since the Unix epoch.
-/

namespace SC.Impl.Streaming

open Replication (Uuid)

/-! ## Constants -/

/-- `VERSION` and `HIGH_QUALITY_FLAG`. -/
def version : UInt8 := 1
def highQualityFlag : UInt8 := 1

/-- `NONCE_LEN`, `TAG_LEN`, `HEADER_LEN`, `MAX_SECRET_LEN`, `MAX_TICKET_LEN` and `MAX_KEYS`. -/
def nonceLen : Nat := 12
def tagLen : Nat := 16
def headerLen : Nat := 1 + 1 + 8 + 16 + 2
def maxSecretLen : Nat := 1024
def maxTicketLen : Nat := 2048
def maxKeys : Nat := 4

def second : Nat := 1000000000

def maxLifetime : Nat := 300 * second

/-! ## Text -/

def urlSafeSymbols : List Char := "ABCDEFGHIJKLMNOPQRSTUVWXYZabcdefghijklmnopqrstuvwxyz0123456789-_".toList

def urlSafeSymbol (n : Nat) : Char := urlSafeSymbols.getD n 'A'

def urlSafeValue (c : Char) : Option Nat := urlSafeSymbols.findIdx? fun symbol => symbol = c

theorem urlSafeValue_symbol {n : Nat} (h : n < 64) : urlSafeValue (urlSafeSymbol n) = some n := by
  have hall : ∀ n : Fin 64, urlSafeValue (urlSafeSymbol n) = some n.val := by decide +kernel
  exact hall ⟨n, h⟩

theorem lt_of_urlSafeValue {c : Char} {n : Nat} (h : urlSafeValue c = some n) : n < 64 :=
  (List.findIdx?_eq_some_iff_getElem.1 h).1

theorem urlSafeSymbol_value {c : Char} {n : Nat} (h : urlSafeValue c = some n) : urlSafeSymbol n = c := by
  obtain ⟨hlt, hc, -⟩ := List.findIdx?_eq_some_iff_getElem.1 h
  rw [urlSafeSymbol, List.getD_eq_getElem?_getD, List.getElem?_eq_getElem hlt]
  exact of_decide_eq_true hc

def urlSafeNoPad : Alphabet Char :=
  ⟨urlSafeSymbol, urlSafeValue, urlSafeValue_symbol, lt_of_urlSafeValue, urlSafeSymbol_value⟩

def asBytes (text : String) : List UInt8 := text.toUTF8.data.toList

def fromUtf8 (bytes : List UInt8) : Option String := String.fromUTF8? ⟨bytes.toArray⟩

/-! ## Tickets -/

inductive StreamTicketError where
  | invalidKey
  | invalidKeyRing
  | secretTooLong
  | invalidClock
  | randomUnavailable
  | invalidTicket
  | expired
  deriving DecidableEq

structure StreamTicketKey where
  bytes : Vector UInt8 32
  deriving DecidableEq

/-- `StreamTicketKeys`: one to four keys. -/
structure StreamTicketKeys where
  keys : List StreamTicketKey
  size : keys ≠ [] ∧ keys.length ≤ maxKeys

def StreamTicketKeys.new (keys : List StreamTicketKey) : Except StreamTicketError StreamTicketKeys :=
  if h : keys ≠ [] ∧ keys.length ≤ maxKeys then .ok ⟨keys, h⟩ else .error .invalidKeyRing

structure StreamTicket where
  sessionId : Uuid
  secretToken : Option String
  highQuality : Bool
  deriving DecidableEq

abbrev Cipher := Vault StreamTicketKey (List UInt8) tagLen

def aadPrefix : List UInt8 := asBytes "scd-stream-ticket-v1\x00"

def aad (trackUrn : String) : List UInt8 := aadPrefix ++ asBytes trackUrn

def unixSeconds (time : Int) : Except StreamTicketError Nat :=
  if time < 0 then .error .invalidClock else .ok (time.toNat / second)

def plaintext (sessionId : Uuid) (highQuality : Bool) (expiresAt : Nat) (secret : List UInt8) : List UInt8 :=
  [version, highQuality.toNat.toUInt8 * highQualityFlag] ++ beBytes 8 expiresAt ++ beBytes 16 sessionId.toNat ++
    beBytes 2 secret.length ++ secret

/-- The arguments of `issue_at`, and the nonce and the ciphertext that the random generator and the cipher will give. -/
structure IssueCall where
  key : StreamTicketKey
  sessionId : Uuid
  trackUrn : String
  secretToken : Option String
  highQuality : Bool
  ttl : Nat
  now : Int
  nonce : Option (Vector UInt8 12)
  ciphertext : List UInt8

def issueAt (cipher : Cipher) (call : IssueCall) : Except StreamTicketError (Cipher × String) :=
  let ttl := min call.ttl maxLifetime
  match unixSeconds call.now with
  | .error e => .error e
  | .ok seconds =>
    let expiresAt := seconds + ttl / second
    if expiresAt ≥ 2 ^ 64 then .error .invalidClock
    else
      let secret := asBytes (call.secretToken.getD "")
      if secret.length ≥ 2 ^ 16 then .error .secretTooLong
      else if secret.length > maxSecretLen then .error .secretTooLong
      else
        match call.nonce with
        | none => .error .randomUnavailable
        | some nonce =>
          match cipher.encrypt ⟨call.key, nonce.toList, aad call.trackUrn,
            plaintext call.sessionId call.highQuality expiresAt secret, call.ciphertext⟩ with
          | none => .error .invalidTicket
          | some cipher => .ok (cipher, String.ofList (urlSafeNoPad.encode (nonce.toList ++ call.ciphertext)))

def parseTicket (plaintext : List UInt8) (now : Nat) : Except StreamTicketError StreamTicket :=
  if plaintext.length < headerLen ∨ plaintext.getD 0 0 ≠ version then .error .invalidTicket
  else
    let flags := plaintext.getD 1 0
    if flags &&& ~~~highQualityFlag ≠ 0 then .error .invalidTicket
    else
      let expiresAt := ofBeBytes ((plaintext.drop 2).take 8)
      if expiresAt ≤ now ∨ expiresAt - now > maxLifetime / second then .error .expired
      else
        let sessionId := BitVec.ofNat 128 (ofBeBytes ((plaintext.drop 10).take 16))
        let secretLen := ofBeBytes ((plaintext.drop 26).take 2)
        let secret := plaintext.drop headerLen
        if ¬ (secret.length = secretLen ∧ secret.length ≤ maxSecretLen) then .error .invalidTicket
        else if secret = [] then .ok ⟨sessionId, none, decide (flags &&& highQualityFlag ≠ 0)⟩
        else
          match fromUtf8 secret with
          | none => .error .invalidTicket
          | some token => .ok ⟨sessionId, some token, decide (flags &&& highQualityFlag ≠ 0)⟩

def verifyAt (cipher : Cipher) (key : StreamTicketKey) (encoded trackUrn : String) (now : Int) :
    Except StreamTicketError StreamTicket :=
  if encoded.utf8ByteSize > maxTicketLen then .error .invalidTicket
  else
    match urlSafeNoPad.decode encoded.toList with
    | none => .error .invalidTicket
    | some ticket =>
      if ticket.length < nonceLen + headerLen + tagLen then .error .invalidTicket
      else
        match cipher.decrypt key (ticket.take nonceLen) (aad trackUrn) (ticket.drop nonceLen) with
        | none => .error .invalidTicket
        | some plaintext =>
          match unixSeconds now with
          | .error e => .error e
          | .ok now => parseTicket plaintext now

/-- The loop of `StreamTicketKeys::verify`: each key reads the clock anew. -/
def verifyKeys (cipher : Cipher) (encoded trackUrn : String) (clock : Nat → Int) :
    List StreamTicketKey → (reading : Nat) → Except StreamTicketError StreamTicket →
      Except StreamTicketError StreamTicket
  | [], _, result => result
  | key :: keys, reading, _ =>
    match verifyAt cipher key encoded trackUrn (clock reading) with
    | .ok ticket => .ok ticket
    | .error .expired => .error .expired
    | .error .invalidClock => .error .invalidClock
    | .error e => verifyKeys cipher encoded trackUrn clock keys (reading + 1) (.error e)

def StreamTicketKeys.verify (ring : StreamTicketKeys) (cipher : Cipher) (encoded trackUrn : String)
    (clock : Nat → Int) : Except StreamTicketError StreamTicket :=
  verifyKeys cipher encoded trackUrn clock ring.keys 0 (.error .invalidTicket)

/-! ## Issuing -/

structure Issued where
  call : IssueCall
  ticket : String

/-- What the cipher has sealed, and the tickets issued so far. -/
structure World where
  cipher : Cipher
  issued : List Issued

def World.init : World := ⟨Vault.empty, []⟩

def step (w : World) (call : IssueCall) : Option World :=
  match issueAt w.cipher call with
  | .error _ => some w
  | .ok (cipher, ticket) => some ⟨cipher, ⟨call, ticket⟩ :: w.issued⟩

end SC.Impl.Streaming
