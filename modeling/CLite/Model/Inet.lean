import CLite.Model.Scanf

/-! # IPv4 addresses as text

`inet_aton`, `inet_ntoa` and `gethostbyname` of `net.c`, and `inet_ntop`, `inet_pton` and `getaddrinfo` of
`compat.c`. An address is the word `s_addr`, whose bytes are in network order in memory, so the first octet
of the text is its least significant byte. `errno` and `h_errno` are left out.
-/

namespace CLite

open ByteMemory

def htonl (hostlong : BitVec 32) : BitVec 32 :=
  ((hostlong &&& 0xFF000000) >>> 24) ||| ((hostlong &&& 0x00FF0000) >>> 8) |||
    ((hostlong &&& 0x0000FF00) <<< 8) ||| ((hostlong &&& 0x000000FF) <<< 24)

def isHexLetter (c : CChar) : Bool := 97 ≤ c.plain ∧ c.plain ≤ 102 ∨ 65 ≤ c.plain ∧ c.plain ≤ 70

def toUpper (c : ℤ) : ℤ := if 97 ≤ c ∧ c ≤ 122 then c - 97 + 65 else c

/-- The digit loop of a part: its value, the number of digits and what follows. -/
def atonDigits (base : BitVec 32) (val : BitVec 32) (n : ℕ) : CString → BitVec 32 × ℕ × CString
  | [] => (val, n, [])
  | c :: cp =>
    if isDecimal c then atonDigits base (val * base + BitVec.ofInt 32 (c.plain - 48)) (n + 1) cp
    else if base = 16 ∧ isHexLetter c then
      atonDigits base ((val <<< 4) ||| BitVec.ofInt 32 (toUpper c.plain + 10 - 65)) (n + 1) cp
    else (val, n, c :: cp)

/-- One part: a leading zero selects the base and is not counted as a digit. -/
def atonPart (cp : CString) : BitVec 32 × ℕ × CString :=
  match cp with
  | [] => (0, 0, [])
  | c :: rest =>
    if c = chr '0' then
      if rest.head? = some (chr 'x') ∨ rest.head? = some (chr 'X') then atonDigits 16 0 0 rest.tail
      else atonDigits 8 0 0 rest
    else atonDigits 10 0 0 (c :: rest)

/-- The loop over the parts, with room for `room` more before the last one. -/
def atonLoop (room : ℕ) (parts : List (BitVec 32)) (cp : CString) : Option (List (BitVec 32)) :=
  let (val, n, cp) := atonPart cp
  match cp with
  | [] => if n = 0 then none else some (parts ++ [val])
  | c :: cp =>
    if c = chr '.' then
      match room with
      | 0 => none
      | room + 1 => if n = 0 then none else atonLoop room (parts ++ [val]) cp
    else if isSpace c then if n = 0 then none else some (parts ++ [val])
    else none

/-- The `switch` on the number of parts. -/
def atonValue (parts : List (BitVec 32)) : Option (BitVec 32) :=
  match parts with
  | [a] => some a
  | [a, b] => if b > 0xffffff then none else some ((a <<< 24) ||| b)
  | [a, b, c] => if c > 0xffff then none else some ((a <<< 24) ||| (b <<< 16) ||| c)
  | [a, b, c, d] =>
    if (a ||| b ||| c ||| d) > 0xff then none
    else some ((a <<< 24) ||| (b <<< 16) ||| (c <<< 8) ||| d)
  | _ => none

/-- The address stored in `inp`, if the call returns 1. -/
def inetAton (cp : CString) : Option (BitVec 32) := ((atonLoop 3 [] cp).bind atonValue).map htonl

/-- The bytes of an address in memory order, as the unsigned arguments they become. -/
def octets (addr : BitVec 32) : List (BitVec 32) :=
  [addr &&& 0xff, (addr >>> 8) &&& 0xff, (addr >>> 16) &&& 0xff, (addr >>> 24) &&& 0xff]

def quadFormat : CString := ['%', 'u', '.', '%', 'u', '.', '%', 'u', '.', '%', 'u'].map chr

/-- The memory after the call; the string is in the static array `buf`. -/
def inetNtoa (memory : Memory) (buf : ℕ) (addr : BitVec 32) : Option Memory :=
  (vsnprintf (.ofWords (octets addr)) memory buf 18 quadFormat 0).map Prod.snd

def AF_INET : ℤ := 2

/-- Whether `dst` is returned and not a null pointer, and the memory after the call. -/
def inetNtop (memory : Memory) (af : ℤ) (addr : BitVec 32) (dst size : ℕ) : Option (Bool × Memory) :=
  if af = AF_INET then
    if size < 16 then some (false, memory)
    else (vsnprintf (.ofWords (octets addr)) memory dst size quadFormat 0).map fun result => (true, result.2)
  else some (false, memory)

/-- The returned value and the address stored in `dst`. -/
def inetPton (af : ℤ) (src : CString) : ℤ × Option (BitVec 32) :=
  if af = AF_INET then
    match inetAton src with
    | none => (0, none)
    | some addr => (1, some addr)
  else (-1, none)

def localhost : CString := ['l', 'o', 'c', 'a', 'l', 'h', 'o', 's', 't'].map chr

def loopbackText : CString := ['1', '2', '7', '.', '0', '.', '0', '.', '1'].map chr

def INADDR_LOOPBACK : BitVec 32 := 0x7f000001

/-- The fields of the static `hostent` that are set; `addr` is what `h_addr_list[0]` points to. -/
structure Hostent where
  name : CString
  addrtype : ℤ
  length : ℕ
  addr : BitVec 32

def gethostbyname (name : CString) : Option Hostent :=
  match inetAton name with
  | some addr => some ⟨name.take 63, AF_INET, 4, addr⟩
  | none => if name = localhost then some ⟨localhost, AF_INET, 4, htonl INADDR_LOOPBACK⟩ else none

def EAI_NONAME : ℤ := -2
def EAI_MEMORY : ℤ := -10
def SOCK_STREAM : ℤ := 1

/-- The fields of `addrinfo` and of its `sockaddr_in` that are set. -/
structure Addrinfo where
  family : ℤ
  socktype : ℤ
  addrlen : ℕ
  sinFamily : ℤ
  sinAddr : BitVec 32

/-- The returned value and `*res` if it was stored; service and hints are not looked at. `allocates` says
whether both calls of `malloc` succeed. -/
def getaddrinfo (allocates : Bool) (node : CString) : ℤ × Option Addrinfo :=
  match inetAton node with
  | some addr =>
    if allocates then (0, some ⟨AF_INET, SOCK_STREAM, 16, AF_INET, addr⟩) else (EAI_MEMORY, none)
  | none => if node = localhost then getaddrinfo allocates loopbackText else (EAI_NONAME, none)
termination_by if node = localhost then 1 else 0
decreasing_by
  have different : loopbackText ≠ localhost := by decide
  simp_all

end CLite
