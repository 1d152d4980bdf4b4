import SoundCloudBackend.Framework.Scan
import SoundCloudBackend.Impl.Text

/-!
# Scrubbing log lines

`text` of `redact/src/scrub.rs`, which every line of the log passes. A text is the list of its
characters, and the length of one is in bytes. `char::is_alphanumeric` is a table of Unicode, which
stays a parameter. A result is `none` where the code panics: `url_text` cuts the word
one byte behind the last character that is no letter or digit of ASCII.
-/

namespace SC.Impl.Redact.Scrub

def mask : List Char := "[redacted]".toList

def len : List Char → Nat
  | [] => 0
  | c :: rest => c.utf8Size + len rest

/-! ## What is a secret -/

def secretWords : List String :=
  ["token", "secret", "passw", "key", "auth", "session", "client_id", "credential", "cookie", "signature"]

def secretKey (key : List Char) : Bool :=
  secretWords.any fun word => (cutAt word.toList (key.map Char.toLower)).isSome

def shareToken (segment : List Char) : Bool :=
  len segment > 3 && "s-".toList.isPrefixOf segment && (segment.drop 2).all Char.isAlphanum

def isHexDigit (c : Char) : Bool := c.isDigit || ('a' ≤ c && c ≤ 'f') || ('A' ≤ c && c ≤ 'F')

def isUuid (word : List Char) : Bool :=
  len word = 36 && word.zipIdx.all fun (c, index) => if index ∈ [8, 13, 18, 23] then c = '-' else isHexDigit c

def secretShaped (word : List Char) : Bool :=
  if "eyJ".toList.isPrefixOf word && word.contains '.' && len word > 20 then true
  else if len word < 24 || isUuid word then false
  else word.all (fun c => c.isAlphanum || c = '-') && word.any Char.isDigit && word.any Char.isAlpha

/-! ## Words -/

def isWrapper (c : Char) : Bool :=
  c ∈ ['(', ')', '\x22', '\x27', '<', '>', '[', ']', '\x7b', '\x7d', ',', ';', '.']

/-- What ends the URL of a word: a quote, an angle bracket or a closing bracket. -/
def isCloser (c : Char) : Bool := c ∈ ['\x22', '\x27', ')', '<', '>', '\x7d', ']']

/-- The path of a URL, each segment of which is masked if it looks like a secret. -/
def pathText (path : List Char) : List Char :=
  ['/'].intercalate
    ((path.splitOn '/').map fun segment => if secretShaped segment || shareToken segment then mask else segment)

/-- `url_text` of a core, with what stands before its first `://` and behind it. -/
def urlText (before after : List Char) : Option (List Char) :=
  let lead := before.rdropWhile Char.isAlphanum
  let scheme := before.rtakeWhile Char.isAlphanum
  -- `start` is no boundary of a character
  if lead.getLast?.any fun c => c.utf8Size ≠ 1 then none
  else
    let rest := after.takeWhile fun c => !isCloser c
    let suffix := after.dropWhile fun c => !isCloser c
    let location := rest.takeWhile fun c => c ≠ '?' && c ≠ '#'
    let authority := location.takeWhile fun c => c ≠ '/'
    let path := location.dropWhile fun c => c ≠ '/'
    let host := authority.rtakeWhile fun c => c ≠ '@'
    some (lead ++ scheme ++ "://".toList ++ host ++ pathText path ++ suffix)

section

variable (isAlphanumeric : Char → Bool)

/-- The branch of `core_text` for a key and its value. -/
def fieldText (wordText : List Char → Bool → Option (List Char × Bool)) (key : List Char) (separator : Char)
    (value : List Char) : Option (List Char × Bool) :=
  let core := key ++ separator :: value
  let outside : Char → Bool := fun c => !isAlphanumeric c && c ≠ '_'
  let keyName := (key.dropWhile outside).rdropWhile outside
  if "request_id".toList.isSuffixOf keyName || "trace_id".toList.isSuffixOf keyName ||
      keyName = "oauth_app_id".toList then some (core, false)
  else if secretKey keyName then
    if value.isEmpty then some (core, true)
    else some (key ++ separator :: (value.takeWhile isWrapper ++ mask), false)
  else if value.head? = some ':' then some (core, false)
  else (wordText value false).map fun (out, hideNext) => (key ++ separator :: out, hideNext)

/-- `core_text`, with the function for the words of values. -/
def coreText (wordText : List Char → Bool → Option (List Char × Bool)) (core : List Char) (hideNext : Bool) :
    Option (List Char × Bool) :=
  if core.isEmpty then some ([], hideNext)
  else if core.map Char.toLower ∈ ["bearer".toList, "oauth".toList, "basic".toList] then some (core, true)
  else if hideNext then some (mask, false)
  else
    match cutAt "://".toList core with
    | some (before, after) => (urlText before after).map fun out => (out, false)
    | none =>
      match core.dropWhile fun c => c ≠ '=' && c ≠ ':' with
      | separator :: value =>
        fieldText isAlphanumeric wordText (core.takeWhile fun c => c ≠ '=' && c ≠ ':') separator value
      | [] => some (if secretShaped core then mask else core, false)

/-- `word_text`. The word of a value is shorter than the word it stands in. -/
def wordFuel : Nat → List Char → Bool → Option (List Char × Bool)
  | 0, _, hideNext => some ([], hideNext)
  | fuel + 1, word, hideNext =>
    let rest := word.dropWhile isWrapper
    (coreText isAlphanumeric (wordFuel fuel) (rest.rdropWhile isWrapper) hideNext).map fun (out, hideNext) =>
      (word.takeWhile isWrapper ++ out ++ rest.rtakeWhile isWrapper, hideNext)

def wordText (word : List Char) (hideNext : Bool) : Option (List Char × Bool) :=
  wordFuel isAlphanumeric word.length word hideNext

/-! ## Lines -/

def isGap (c : Char) : Bool := isWhitespace c || c = ','

def uriNote : List Char := " for uri (".toList

def stripUriNote (input : List Char) : List Char :=
  match cutAt uriNote input with
  | none => input
  | some (before, after) => before ++ (after.dropWhile fun c => c ≠ ')').drop 1

def text (input : List Char) : Option (List Char) :=
  if len input < 16 && !(input.any fun c => c ∈ [':', '=', '/', '?', ' ', ',']) then some input
  else (scan isGap (wordText isAlphanumeric) false (stripUriNote input)).map Prod.fst

end

end SC.Impl.Redact.Scrub
