/-
The names previews are opened under.

The front door is made for one host and lowers its name once; a request's host is split from its
port and lowered each time.  Lowering is Unicode's, character by character: of it no more is known
than what it does to ASCII, and that it makes nothing into one of its marks.
-/
import Fern.Preview.Serve

namespace Fern

namespace Preview

/-- `net.SplitHostPort`: the host and the port, or none where it is an error. -/
def splitHostPort (hostport : List Char) : Option (List Char × List Char) :=
  -- the port starts after the last colon
  let port := afterLast ':' hostport
  let before := hostport.take (hostport.length - port.length - 1)
  if ':' ∉ hostport then none
  else if hostport.head? = some '[' then
    -- the first `]` has to be just before the last colon
    let host := hostport.tail.takeWhile (· ≠ ']')
    if before ≠ '[' :: host ++ [']'] then none
    else if '[' ∈ hostport.tail ∨ ']' ∈ hostport.drop before.length then none
    else some (host, port)
  else if ':' ∈ before then none
  else if '[' ∈ hostport ∨ ']' ∈ hostport then none
  else some (before, port)

example : splitHostPort "[::1]:80".toList = some ("::1".toList, "80".toList) := by decide

/-- `unicode.ToLower`, with what a name relies on. -/
structure Casing where
  lower : Char → Char
  ascii : ∀ c, c.toNat < 128 → lower c = c.toLower
  /-- What is lowered to an ASCII character other than a letter is that character. -/
  plain : ∀ c, (lower c).toNat < 128 → (lower c).isLower = false → lower c = c

namespace Casing

variable (k : Casing)

/-- `strings.ToLower`, of a text as its characters. -/
def toLower (l : List Char) : List Char := l.map k.lower

/-- The same text but for the case of its letters. -/
def Same (l l' : List Char) : Prop := k.toLower l = k.toLower l'

instance (l l' : List Char) : Decidable (k.Same l l') :=
  inferInstanceAs (Decidable (k.toLower l = k.toLower l'))

end Casing

/-- `New`: the front door for the previews under `host`. -/
def new (k : Casing) (host : List Char) (decoders : Setup.Decoders)
    (workspace : EnvID → Option Setup.Checkout) (wake : EnvID → Option (List Char)) : Server where
  host := k.toLower host
  splitHost := fun hostport => (splitHostPort hostport).map Prod.fst
  lower := k.toLower
  decoders := decoders
  workspace := workspace
  wake := wake

/-- A request's host without its port, lowered. -/
def hostOf (k : Casing) (hostport : List Char) : List Char :=
  k.toLower (((splitHostPort hostport).map Prod.fst).getD hostport)

/-- A character that sets off a host from its port. -/
def isMark (c : Char) : Bool := c == ':' || c == '[' || c == ']'

/-- What a host name is here: anything that has none of the marks. -/
def HostName (h : List Char) : Prop := ∀ c ∈ h, isMark c = false

instance (h : List Char) : Decidable (HostName h) :=
  decidable_of_iff (h.all (fun c => !isMark c) = true) (by simp [HostName])

/-- Nothing, or a port behind a colon. -/
def PortText (tail : List Char) : Prop := tail = [] ∨ ∃ p, tail = ':' :: p ∧ HostName p

/-- Digits, at least one. -/
def Digits (l : List Char) : Prop := l ≠ [] ∧ ∀ c ∈ l, c.isDigit = true

/-- An ID that starts with digits and a dash. -/
def Numbered (id : EnvID) : Prop := ∃ p rest, Digits p ∧ id.toList = p ++ '-' :: rest

end Preview

end Fern
