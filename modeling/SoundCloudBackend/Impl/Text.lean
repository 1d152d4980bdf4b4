import Mathlib.Data.String.Basic

/-!
# Text functions

The functions of Rust's `char` and `str` that the code uses, on lists of
characters (Lean's own ones only know ASCII white space), and the parser of
references to SoundCloud entities (`utils/entity-ref/src/lib.rs`).
-/

namespace SC.Impl

def isWhitespace (c : Char) : Bool :=
  let n := c.toNat
  (9 ≤ n ∧ n ≤ 13) ∨ n = 0x20 ∨ n = 0x85 ∨ n = 0xA0 ∨ n = 0x1680 ∨ (0x2000 ≤ n ∧ n ≤ 0x200A) ∨ n = 0x2028 ∨
    n = 0x2029 ∨ n = 0x202F ∨ n = 0x205F ∨ n = 0x3000

def trim (text : List Char) : List Char :=
  ((text.dropWhile isWhitespace).reverse.dropWhile isWhitespace).reverse

/-- `text.strip_prefix(front).unwrap_or(text)`. -/
def stripFront (front text : String) : String :=
  if front.toList.isPrefixOf text.toList then String.ofList (text.toList.drop front.length) else text

/-- `text.parse::<u64>().is_ok_and(|id| id > 0 && id.to_string() == text)`. -/
def isCanonicalId (text : String) : Bool :=
  let digits := text.toList
  digits.all Char.isDigit ∧ digits.head?.any (· ≠ '0') ∧
    digits.foldl (fun n c => n * 10 + (c.toNat - '0'.toNat)) 0 < 2 ^ 64

def isControl (c : Char) : Bool :=
  c.toNat < 0x20 ∨ (0x7F ≤ c.toNat ∧ c.toNat ≤ 0x9F)

def trimEnd (text : List Char) : List Char :=
  (text.reverse.dropWhile isWhitespace).reverse

/-- `str::split_whitespace` and `join(" ")`. -/
def joinWords (text : List Char) : List Char :=
  [' '].intercalate ((text.splitOnP isWhitespace).filter (· ≠ []))

/-! ## References to SoundCloud entities -/

inductive EntityKind where
  | track | playlist | user
  deriving DecidableEq

def EntityKind.segment : EntityKind → String
  | .track => "tracks"
  | .playlist => "playlists"
  | .user => "users"

def EntityKind.fromSegment (segment : List Char) : Option EntityKind :=
  if segment = "tracks".toList then some .track
  else if segment = "playlists".toList then some .playlist
  else if segment = "users".toList then some .user
  else none

structure EntityRef where
  kind : EntityKind
  id : Nat
  deriving DecidableEq

def parseDigits (raw : List Char) : Option Nat :=
  if raw = [] ∨ raw.length > 19 ∨ raw.head? = some '0' ∨ ¬ raw.all Char.isDigit then none
  else some (raw.foldl (fun n c => n * 10 + (c.toNat - '0'.toNat)) 0)

def EntityRef.new (kind : EntityKind) (id : Nat) : Option EntityRef :=
  if id > 0 ∧ id < 2 ^ 63 then some ⟨kind, id⟩ else none

def EntityRef.parseUrn (input : List Char) : Option EntityRef := do
  let input := trim input
  guard ("soundcloud:".toList.isPrefixOf input)
  let rest := input.drop "soundcloud:".length
  guard (':' ∈ rest)
  let kind ← EntityKind.fromSegment (rest.takeWhile (· ≠ ':'))
  let id ← parseDigits ((rest.dropWhile (· ≠ ':')).drop 1)
  EntityRef.new kind id

def EntityRef.parse (kind : EntityKind) (input : String) : Option EntityRef :=
  let input := trim input.toList
  match EntityRef.parseUrn input with
  | some parsed => if parsed.kind = kind then some parsed else none
  | none => if ':' ∈ input then none else (parseDigits input).bind (EntityRef.new kind)

def EntityRef.urn (r : EntityRef) : String :=
  "soundcloud:" ++ r.kind.segment ++ ":" ++ toString r.id

end SC.Impl
