import CLite.Soundness.InetRoundTrip

/-! # `inet_pton` and canonical addresses

`inet_pton` should accept the text that `inet_ntop` prints and no other spelling. It hands its string to `inet_aton`,
which rejects the canonical text of an address with a zero octet, and accepts fewer than four parts, other bases,
values that wrap and anything behind white space.
-/

namespace CLite

open ByteMemory BoundedSink

/-- The string is what `inet_ntop` prints for the address. -/
def NtopText (s : CString) (addr : BitVec 32) : Prop :=
  ∃ memory dst size after, dst ≠ 0 ∧ inetNtop memory AF_INET addr dst size = some (true, after) ∧
    Printed memory dst size (s.map CChar.byte) after

/-- `inet_pton` accepts the string exactly if it is canonical, with its address, and stores nothing otherwise. -/
def CanonicalOnly (s : CString) : Prop :=
  (∀ addr, inetPton AF_INET s = (1, some addr) ↔ NtopText s addr) ∧
    ((∀ addr, ¬ NtopText s addr) → inetPton AF_INET s = (0, none))

section Texts

variable {s : CString} {addr : BitVec 32}

theorem ntopText_iff : NtopText s addr ↔ s = joinDots (octetValues addr) := by
  constructor
  · rintro ⟨memory, dst, size, after, nonnull, returned, stored⟩
    rw [inetNtop, if_pos rfl] at returned
    split at returned
    · cases returned
    · next room =>
      obtain ⟨ret, memory', result, printed⟩ := vsnprintf_quad memory nonnull (not_lt.mp room) addr
      rw [result] at returned
      cases returned
      exact stored.unique printed
  · rintro rfl
    obtain ⟨ret, after, result, printed⟩ := vsnprintf_quad (fun _ => 0) Nat.one_ne_zero (le_refl 16) addr
    refine ⟨_, 1, 16, after, Nat.one_ne_zero, ?_, printed⟩
    rw [inetNtop, if_pos rfl, if_neg (lt_irrefl 16), result, Option.map_some]

theorem inetPton_some_iff : inetPton AF_INET s = (1, some addr) ↔ inetAton s = some addr := by
  rw [inetPton, if_pos rfl]
  cases inetAton s <;> simp

theorem inetPton_none_iff : inetPton AF_INET s = (0, none) ↔ inetAton s = none := by
  rw [inetPton, if_pos rfl]
  cases inetAton s <;> simp

/-- A canonical text is read unless its address has a zero octet. -/
theorem inetAton_ntopText (canonical : NtopText s addr) :
    inetAton s = if ∃ octet ∈ octets addr, octet = 0 then none else some addr := by
  rw [ntopText_iff.mp canonical, inetAton_joinDots]

/-- The strings that the parser rejects. -/
theorem inetAton_eq_none_iff :
    inetAton s = none ↔
      ∀ parts, MadeOf s parts → .zero ∈ parts ∨ ¬ InWrappedBounds (parts.map AddressPart.value) := by
  have rejected {parts : List AddressPart} (made : MadeOf s parts) :
      inetAton s = none ↔ .zero ∈ parts ∨ ¬ InWrappedBounds (parts.map AddressPart.value) := by
    rw [← Option.not_isSome_iff_eq_none, inetAton_isSome_iff made, not_and_or]
    refine or_congr_left ⟨fun missing => ?_, fun member all => all _ member rfl⟩
    by_contra absent
    exact missing fun part member zero => absent (zero ▸ member)
  constructor
  · intro none parts made
    exact (rejected made).mp none
  · intro holds
    cases accepted : inetAton s with
    | none => rfl
    | some addr =>
      obtain ⟨parts, made⟩ := madeOf_of_inetAton accepted
      rw [(rejected made).mpr (holds parts made)] at accepted
      cases accepted

end Texts

/-- `inet_pton` accepts canonical texts only, on the strings of which the canonical address has no zero octet or which
are not canonical and not made of parts that the parser lets pass. -/
theorem inetPton_canonical_iff (s : CString) :
    CanonicalOnly s ↔ (∀ addr, NtopText s addr → ∀ octet ∈ octets addr, octet ≠ 0) ∧
      ((∀ addr, ¬ NtopText s addr) →
        ∀ parts, MadeOf s parts → .zero ∈ parts ∨ ¬ InWrappedBounds (parts.map AddressPart.value)) := by
  simp only [CanonicalOnly, inetPton_some_iff, inetPton_none_iff, ← inetAton_eq_none_iff]
  refine and_congr_left fun other => ?_
  constructor
  · intro agree addr canonical octet member zero
    have accepted := (agree addr).mpr canonical
    rw [inetAton_ntopText canonical, if_pos ⟨octet, member, zero⟩] at accepted
    cases accepted
  · intro nonzero addr
    have reads {addr : BitVec 32} (canonical : NtopText s addr) : inetAton s = some addr := by
      rw [inetAton_ntopText canonical, if_neg]
      rintro ⟨octet, member, zero⟩
      exact nonzero addr canonical octet member zero
    refine ⟨fun accepted => ?_, reads⟩
    by_cases canonical : ∃ own, NtopText s own
    · obtain ⟨own, canonical⟩ := canonical
      rw [reads canonical] at accepted
      rwa [← Option.some.inj accepted]
    · rw [other (not_exists.mp canonical)] at accepted
      cases accepted

/-- The text of the loopback address is rejected, and `1.1` is accepted for the address `1.0.0.1`. -/
theorem pton_spellings : ¬ CanonicalOnly loopbackText ∧ ¬ CanonicalOnly (['1', '.', '1'].map chr) := by
  constructor
  · intro only
    have canonical : NtopText loopbackText 0x0100007f := ntopText_iff.mpr (by decide)
    exact absurd ((only.1 _).mpr canonical) (by decide)
  · intro only
    have canonical := ntopText_iff.mp ((only.1 0x01000001).mp (by decide))
    exact absurd canonical (by decide)

end CLite
