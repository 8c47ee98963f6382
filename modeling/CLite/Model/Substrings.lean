import CLite.Model.CString
import CLite.Lib.ByteMemory

/-! # The substring searches

`strstr` and `strcasestr` walk over a C string, and `memmem` over an array of bytes in memory. A search returns
the offset of the pointer that the source returns, or for `memmem` its address; `none` is the null pointer.
-/

namespace CLite

open ByteMemory

/-- The comparison loop of `strstr`: what is left of the needle when it stops. -/
def skipCommon : CString → CString → CString
  | h :: haystack, n :: needle => if h = n then skipCommon haystack needle else n :: needle
  | _, needle => needle

/-- The outer loop of `strstr`, with the haystack advanced by `offset` characters. -/
def strstrLoop (needle : CString) (offset : ℕ) : CString → Option ℕ
  | [] => none
  | c :: rest =>
      if needle.head? = some c ∧ skipCommon (c :: rest) needle = [] then some offset
      else strstrLoop needle (offset + 1) rest

def strstr (haystack needle : CString) : Option ℕ :=
  if needle = [] then some 0 else strstrLoop needle 0 haystack

/-- `tolower` of `ctype.h`. -/
def tolower (c : ℤ) : ℤ := if 65 ≤ c ∧ c ≤ 90 then c + (97 - 65) else c

/-- The first character as an `unsigned char`, the terminator if the string is at its end. -/
def firstUnsigned (s : CString) : ℤ := (s.head?.map CChar.unsigned).getD 0

/-- `strncasecmp`, the strings advanced to the character that is compared next. -/
def strncasecmp : CString → CString → ℕ → ℤ
  | _, _, 0 => 0
  | s1, s2, n + 1 =>
      let c1 := tolower (firstUnsigned s1)
      let c2 := tolower (firstUnsigned s2)
      if c1 ≠ c2 ∨ s1 = [] then c1 - c2 else strncasecmp s1.tail s2.tail n

/-- The loop of `strcasestr`, with the haystack advanced by `offset` characters. -/
def strcasestrLoop (needle : CString) (nl offset : ℕ) : CString → Option ℕ
  | [] => none
  | c :: rest =>
      if strncasecmp (c :: rest) needle nl = 0 then some offset
      else strcasestrLoop needle nl (offset + 1) rest

def strcasestr (haystack needle : CString) : Option ℕ :=
  if needle = [] then some 0 else strcasestrLoop needle needle.length 0 haystack

/-- `memcmp`, the two addresses advanced to the byte that is compared next. -/
def memcmp (memory : Memory) (a b : ℕ) : ℕ → ℤ
  | 0 => 0
  | n + 1 =>
      if memory a ≠ memory b then (memory a).toNat - (memory b).toNat
      else memcmp memory (a + 1) (b + 1) n

/-- The loop of `memmem` from index `i` on; no sum here passes the end of an array, so none wraps. -/
def memmemLoop (memory : Memory) (haystack haystacklen needle needlelen i : ℕ) : Option ℕ :=
  if i + needlelen ≤ haystacklen then
    if memcmp memory (haystack + i) needle needlelen = 0 then some (haystack + i)
    else memmemLoop memory haystack haystacklen needle needlelen (i + 1)
  else none
termination_by haystacklen + 1 - i

def memmem (memory : Memory) (haystack haystacklen needle needlelen : ℕ) : Option ℕ :=
  if needlelen = 0 then some haystack
  else if haystacklen < needlelen then none
  else memmemLoop memory haystack haystacklen needle needlelen 0

end CLite
