import CLite.Proofs.InetText

/-! # Printing and parsing IPv4 addresses

An address that is printed as a dotted quad should be read back. The parser takes a leading zero for the
prefix of an octal or hexadecimal number and does not count it as a digit, so it rejects the octet `0` and
with it most addresses in common use.
-/

namespace CLite

open ByteMemory BoundedSink

variable {memory : Memory} {buf dst size : ℕ} {addr : BitVec 32}

/-- `inet_aton` reads what `inet_ntoa` prints. -/
def NtoaRoundTrip (memory : Memory) (buf : ℕ) (addr : BitVec 32) : Prop :=
  ∃ text after, inetNtoa memory buf addr = some after ∧ Printed memory buf 18 (text.map CChar.byte) after ∧
    inetAton text = some addr

/-- `inet_pton` reads what `inet_ntop` prints. -/
def NtopRoundTrip (memory : Memory) (dst size : ℕ) (addr : BitVec 32) : Prop :=
  ∃ text after, inetNtop memory AF_INET addr dst size = some (true, after) ∧
    Printed memory dst size (text.map CChar.byte) after ∧ inetPton AF_INET text = (1, some addr)

theorem readPiece_unsigned (args : Arguments) (rest : CString) (cursor : ℕ) :
    readPiece args (chr '%') (chr 'u' :: rest) cursor =
      ⟨.text (numberText (args.word cursor).toNat 10 false 0 (ascii ' ') false false), rest, cursor + 1⟩ := rfl

theorem numberText_plain (val : ℕ) :
    numberText val 10 false 0 (ascii ' ') false false = (decimal val).map CChar.byte := by
  have noPadding (used : ℕ) : padCount 0 used = 0 := if_neg (by omega)
  simp only [numberText, noPadding, numBuf_reverse (by decide : 1 < 10) (by decide : 10 ≤ 16)]
  rfl

/-- The printers write the octets with dots between them. -/
theorem formatPieces_quadFormat (addr : BitVec 32) :
    fullText (formatPieces (.ofWords (octets addr)) quadFormat 0) = (joinDots (octetValues addr)).map CChar.byte ∧
      ∀ piece ∈ formatPieces (.ofWords (octets addr)) quadFormat 0, piece.Regular := by
  have dot (rest : CString) (cursor : ℕ) : readPiece (.ofWords (octets addr)) (chr '.') rest cursor =
      ⟨.text [ascii '.'], rest, cursor⟩ := readPiece_literal (by decide) rest cursor
  have shape : quadFormat = chr '%' :: chr 'u' :: chr '.' :: chr '%' :: chr 'u' :: chr '.' :: chr '%' ::
      chr 'u' :: chr '.' :: chr '%' :: chr 'u' :: [] := rfl
  simp only [shape, formatPieces_cons, readPiece_unsigned, dot, formatPieces_nil, numberText_plain]
  constructor
  · simp only [fullText, octetValues, octets, List.map_cons, List.map_nil, joinDots, List.map_append,
      List.append_nil]
    rfl
  · simp [Piece.Regular]

theorem joinDots_length (addr : BitVec 32) : (joinDots (octetValues addr)).length ≤ 15 := by
  have bound (word : BitVec 32) : (decimal (word &&& 0xff).toNat).length ≤ 3 := by
    rw [decimal, List.length_map]
    exact leadDigits_length_le (by decide) (by decide) ((and_byte_lt word).trans (by decide))
  have first := bound addr
  have second := bound (addr >>> 8)
  have third := bound (addr >>> 16)
  have fourth := bound (addr >>> 24)
  simp only [octetValues, octets, List.map_cons, List.map_nil, joinDots, List.length_append, List.length_cons]
  omega

/-- A call that prints a dotted quad into a destination of at least 16 bytes. -/
theorem vsnprintf_quad (memory : Memory) (nonnull : dst ≠ 0) (room : 16 ≤ size) (addr : BitVec 32) :
    ∃ ret after, vsnprintf (.ofWords (octets addr)) memory dst size quadFormat 0 = some (ret, after) ∧
      Printed memory dst size ((joinDots (octetValues addr)).map CChar.byte) after := by
  obtain ⟨text, regular⟩ := formatPieces_quadFormat addr
  have length := joinDots_length addr
  have fits : (fullText (formatPieces (.ofWords (octets addr)) quadFormat 0)).length < size := by
    rw [text, List.length_map]
    omega
  obtain ⟨after, result, printed⟩ := vsnprintf_whole memory nonnull regular fits
  rw [text] at printed
  exact ⟨_, after, result, printed⟩

/-- A string does not go on behind the terminator of another one at the same place. -/
theorem Printed.length_le {str : ℕ} {first second : CString} {after : Memory}
    (one : Printed memory str size (first.map CChar.byte) after)
    (other : Printed memory str size (second.map CChar.byte) after) : first.length ≤ second.length := by
  by_contra longer
  have bound : second.length < (first.map CChar.byte).length := by
    rw [List.length_map]
    omega
  have character := one.characters second.length bound
  have terminator := other.terminator
  rw [List.length_map, character, List.getElem_map] at terminator
  exact CChar.nonzero _ terminator

/-- A destination holds one string. -/
theorem Printed.unique {str : ℕ} {first second : CString} {after : Memory}
    (one : Printed memory str size (first.map CChar.byte) after)
    (other : Printed memory str size (second.map CChar.byte) after) : first = second := by
  apply List.ext_getElem (le_antisymm (one.length_le other) (other.length_le one))
  intro k boundFirst boundSecond
  have character := one.characters k (by rwa [List.length_map])
  rw [other.characters k (by rwa [List.length_map]), List.getElem_map, List.getElem_map] at character
  generalize first[k] = x at character ⊢
  generalize second[k] = y at character ⊢
  obtain ⟨x, _⟩ := x
  obtain ⟨y, _⟩ := y
  simpa using character.symm

theorem ntoaRoundTrip_iff (nonnull : buf ≠ 0) :
    NtoaRoundTrip memory buf addr ↔ inetAton (joinDots (octetValues addr)) = some addr := by
  obtain ⟨ret, memory', result, printed⟩ := vsnprintf_quad memory nonnull (show 16 ≤ 18 by decide) addr
  constructor
  · rintro ⟨text, after, called, stored, read⟩
    rw [inetNtoa, result] at called
    cases called
    rwa [← stored.unique printed]
  · intro read
    exact ⟨_, memory', by rw [inetNtoa, result, Option.map_some], printed, read⟩

theorem ntopRoundTrip_iff (nonnull : dst ≠ 0) (room : 16 ≤ size) :
    NtopRoundTrip memory dst size addr ↔ inetAton (joinDots (octetValues addr)) = some addr := by
  obtain ⟨ret, memory', result, printed⟩ := vsnprintf_quad memory nonnull room addr
  have called : inetNtop memory AF_INET addr dst size = some (true, memory') := by
    rw [inetNtop, if_pos rfl, if_neg (by omega), result, Option.map_some]
  have pton (text : CString) : inetPton AF_INET text = (1, some addr) ↔ inetAton text = some addr := by
    rw [inetPton, if_pos rfl]
    cases inetAton text <;> simp
  constructor
  · rintro ⟨text, after, returned, stored, read⟩
    rw [called] at returned
    cases returned
    rwa [← stored.unique printed, ← pton]
  · intro read
    exact ⟨_, memory', called, printed, (pton _).mpr read⟩

/-- Both round trips succeed exactly for the addresses without a zero octet. -/
theorem inet_roundTrip_iff (static : buf ≠ 0) (nonnull : dst ≠ 0) (room : 16 ≤ size) :
    NtoaRoundTrip memory buf addr ∧ NtopRoundTrip memory dst size addr ↔ ∀ octet ∈ octets addr, octet ≠ 0 := by
  rw [ntoaRoundTrip_iff static, ntopRoundTrip_iff nonnull room, and_self, inetAton_joinDots]
  split
  · next zero =>
    obtain ⟨octet, member, rfl⟩ := zero
    exact iff_of_false (by simp) (fun all => all 0 member rfl)
  · next nonzero => exact iff_of_true rfl (fun octet member zero => nonzero ⟨octet, member, zero⟩)

theorem inet_roundTrip_iff_broadcast :
    NtoaRoundTrip (fun _ => 0) 1 0xffffffff ∧ NtopRoundTrip (fun _ => 0) 100 16 0xffffffff ↔
      ∀ octet ∈ octets 0xffffffff, octet ≠ 0 :=
  inet_roundTrip_iff (by decide) (by decide) (by decide)

/-- The loopback address is printed and not read back. -/
theorem loopback_rejected :
    ¬ NtoaRoundTrip (fun _ => 0) 1 (htonl INADDR_LOOPBACK) ∧
      ¬ NtopRoundTrip (fun _ => 0) 100 16 (htonl INADDR_LOOPBACK) := by
  have rejected : inetAton (joinDots (octetValues (htonl INADDR_LOOPBACK))) = none := by decide
  rw [ntoaRoundTrip_iff (by decide), ntopRoundTrip_iff (by decide) (by decide), rejected]
  simp

end CLite
