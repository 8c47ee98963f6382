import CLite.Proofs.AddressNotation

/-! # `inet_aton` and the notation

The parser and the notation agree on the parts of a string. They differ in which parts they accept: the parser counts
no digit in a lone zero, takes the digits 8 and 9 behind a leading zero, evaluates modulo 2 to the 32 and looks at the
octets before the last part only if there are three of them.
-/

namespace CLite

section Agreement

variable {cp : CString} {parts : List AddressPart} {addr : BitVec 32}

theorem denotes_iff (made : MadeOf cp parts) :
    Denotes cp addr ↔
      InNotation parts ∧ addr = htonl (BitVec.ofNat 32 (hostValue (parts.map AddressPart.value))) := by
  constructor
  · rintro ⟨other, another, proper, stored⟩
    obtain rfl := made.unique another
    exact ⟨proper, octets_injective (stored.trans (octets_stored _).symm)⟩
  · rintro ⟨proper, rfl⟩
    exact ⟨parts, made, proper, octets_stored _⟩

end Agreement

/-- `inet_aton` agrees with the notation on a string exactly if its parts, where it has any, are not a lone zero where
the notation allows one, and are of the notation where the parser lets them pass. -/
theorem inetAton_notation_iff (cp : CString) :
    (∀ addr, inetAton cp = some addr ↔ Denotes cp addr) ↔
      ∀ parts, MadeOf cp parts → (InNotation parts → ∀ part ∈ parts, part ≠ .zero) ∧
        ((∀ part ∈ parts, part ≠ .zero) → InWrappedBounds (parts.map AddressPart.value) → InNotation parts) := by
  constructor
  · intro agree parts made
    constructor
    · intro proper
      have accepted := (agree _).mpr ((denotes_iff made).mpr ⟨proper, rfl⟩)
      exact ((inetAton_isSome_iff made).mp (Option.isSome_of_eq_some accepted)).1
    · intro nonzero wrapped
      obtain ⟨addr, accepted⟩ := Option.isSome_iff_exists.mp ((inetAton_isSome_iff made).mpr ⟨nonzero, wrapped⟩)
      exact ((denotes_iff made).mp ((agree addr).mp accepted)).1
  · intro holds addr
    constructor
    · intro accepted
      obtain ⟨parts, made⟩ := madeOf_of_inetAton accepted
      obtain ⟨nonzero, wrapped⟩ := (inetAton_isSome_iff made).mp (Option.isSome_of_eq_some accepted)
      have proper := (holds parts made).2 nonzero wrapped
      rw [inetAton_inNotation made proper nonzero] at accepted
      exact (denotes_iff made).mpr ⟨proper, (Option.some.inj accepted).symm⟩
    · intro denotes
      have ⟨parts, made, _⟩ := denotes
      obtain ⟨proper, rfl⟩ := (denotes_iff made).mp denotes
      exact inetAton_inNotation made proper ((holds parts made).1 proper)

/-- The parts of `127.0.0.1`. -/
def loopbackParts : List AddressPart := [.decimal (['1', '2', '7'].map chr), .zero, .zero, .decimal (['1'].map chr)]

theorem madeOf_loopback : MadeOf loopbackText loopbackParts where
  nonempty := List.cons_ne_nil _ _
  four := le_refl _
  loose := by decide
  text := by decide

/-- The loopback address is rejected. -/
theorem loopback_not_read : ¬ ∀ addr, inetAton loopbackText = some addr ↔ Denotes loopbackText addr := by
  intro agree
  have proper : InNotation loopbackParts := by decide
  have accepted := (agree _).mpr ((denotes_iff madeOf_loopback).mpr ⟨proper, rfl⟩)
  rw [show inetAton loopbackText = none by decide] at accepted
  cases accepted

end CLite
