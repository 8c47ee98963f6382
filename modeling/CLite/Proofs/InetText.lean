import CLite.Proofs.AddressNotation
import CLite.Proofs.PrintFormats

/-! # Dotted quads

The printers write the octets in decimal with dots between them. Such a text is an address of the notation, and the
parser reads it back unless one of the octets is zero, whose only digit it takes for a base prefix.
-/

namespace CLite

open ByteMemory BoundedSink

/-- A number in decimal. -/
def decimal (val : ℕ) : CString := (leadDigits 10 val).map (digitText false)

def joinDots : List ℕ → CString
  | [] => []
  | [part] => decimal part
  | part :: parts => decimal part ++ chr '.' :: joinDots parts

theorem joinDots_eq (values : List ℕ) : joinDots values = [chr '.'].intercalate (values.map decimal) := by
  induction values with
  | nil => rfl
  | cons value values ih =>
    cases values with
    | nil => rw [joinDots, List.map_singleton, List.intercalate_singleton]
    | cons next values =>
      have join : joinDots (value :: next :: values) = decimal value ++ chr '.' :: joinDots (next :: values) := rfl
      rw [join, ih]
      simp [List.intercalate_cons_cons]

/-- The part that a number in decimal is. -/
def decimalPart (val : ℕ) : AddressPart := if val = 0 then .zero else .decimal (decimal val)

/-- The part has the text and the value of the number. -/
theorem decimalPart_spec (val : ℕ) : (decimalPart val).Loose ∧ (decimalPart val).text = decimal val ∧
    (decimalPart val).value = val ∧ ∀ x ∈ (decimalPart val).digits, IsDigit (decimalPart val).base x = true := by
  by_cases zero : val = 0
  · rw [zero]
    decide
  · have read : ∀ digit ∈ leadDigits 10 val, digitValue (digitText false digit) = some (digit : ℤ) := by
      intro digit member
      exact digitValue_digitText false digit ((leadDigits_lt (by decide) digit member).trans (by decide))
    have digits : ∀ x ∈ decimal val, IsDigit 10 x = true := isDigit_digitText read (leadDigits_lt (by decide))
    have nonempty : decimal val ≠ [] := by
      rw [decimal, Ne, List.map_eq_nil_iff]
      exact leadDigits_ne_nil 10 val
    have leading : (decimal val).head? ≠ some (chr '0') :=
      fun head => zero (leadDigits_head_zero_iff.mp (head_digitText read head))
    rw [decimalPart, if_neg zero]
    refine ⟨⟨nonempty, leading, digits⟩, rfl, ?_, digits⟩
    rw [AddressPart.value, AddressPart.digits, decimal, digitNumber_digitText read, AddressPart.base,
      ← digitsValue_eq_ofDigits, digitsValue_leadDigits]

/-- The octets as numbers. -/
def octetValues (addr : BitVec 32) : List ℕ := (octets addr).map BitVec.toNat

theorem and_byte_lt (word : BitVec 32) : (word &&& 0xff).toNat < 256 := by
  rw [BitVec.toNat_and]
  exact Nat.lt_of_le_of_lt Nat.and_le_right (by decide)

theorem octetValues_lt (addr : BitVec 32) : ∀ part ∈ octetValues addr, part < 256 := by
  intro part member
  simp only [octetValues, octets, List.map_cons, List.map_nil, List.mem_cons, List.not_mem_nil, or_false] at member
  rcases member with rfl | rfl | rfl | rfl <;> exact and_byte_lt _

theorem map_decimalPart {β : Type*} (f : AddressPart → β) (g : ℕ → β) (same : ∀ val, f (decimalPart val) = g val)
    (values : List ℕ) : (values.map decimalPart).map f = values.map g := by
  rw [List.map_map]
  exact List.map_congr_left fun val _ => same val

/-- The parts of a dotted quad. -/
theorem madeOf_joinDots (addr : BitVec 32) :
    MadeOf (joinDots (octetValues addr)) ((octetValues addr).map decimalPart) where
  nonempty := by simp [octetValues, octets]
  four := by simp [octetValues, octets]
  loose := by
    intro part member
    obtain ⟨val, -, rfl⟩ := List.mem_map.mp member
    exact (decimalPart_spec val).1
  text := by
    have texts := map_decimalPart AddressPart.text decimal (fun val => (decimalPart_spec val).2.1) (octetValues addr)
    have plain : ∀ text ∈ ((octetValues addr).map decimalPart).map AddressPart.text,
        ∀ x ∈ text, isSpace x = false := by
      intro text member
      obtain ⟨part, own, rfl⟩ := List.mem_map.mp member
      obtain ⟨val, -, rfl⟩ := List.mem_map.mp own
      exact fun x inside => (text_plain (decimalPart_spec val).1 x inside).1
    have ends : EndsText [] := by rintro x ⟨⟩
    have whole := addressText_append (intercalate_plain plain) ends
    rw [texts, ← joinDots_eq] at whole ⊢
    rwa [List.append_nil] at whole

theorem values_joinDots (addr : BitVec 32) :
    ((octetValues addr).map decimalPart).map AddressPart.value = octetValues addr := by
  rw [map_decimalPart _ id fun val => (decimalPart_spec val).2.2.1, List.map_id]

/-- A dotted quad is of the notation. -/
theorem inNotation_joinDots (addr : BitVec 32) : InNotation ((octetValues addr).map decimalPart) := by
  refine ⟨?_, ?_⟩
  · intro part member
    obtain ⟨val, -, rfl⟩ := List.mem_map.mp member
    exact (decimalPart_spec val).2.2.2
  · have small := octetValues_lt addr
    rw [values_joinDots]
    refine ⟨fun val member => Nat.le_of_lt_succ (small val (List.mem_of_mem_dropLast member)), fun val last => ?_⟩
    exact Nat.le_of_lt_succ (small val (List.mem_of_getLast? last))

theorem networkOctets_quad {a b c d : ℕ} (first : a < 256) (second : b < 256) (third : c < 256) (fourth : d < 256) :
    networkOctets (hostValue [a, b, c, d]) = [a, b, c, d].map (BitVec.ofNat 32) := by
  simp only [networkOctets, hostValue, List.map_cons, List.map_nil, List.cons.injEq, and_true]
  refine ⟨?_, ?_, ?_, ?_⟩ <;> congr 1 <;> omega

/-- The octets are those of the address in network order. -/
theorem htonl_octetValues (addr : BitVec 32) : htonl (BitVec.ofNat 32 (hostValue (octetValues addr))) = addr := by
  apply octets_injective
  have quad : networkOctets (hostValue (octetValues addr)) = (octetValues addr).map (BitVec.ofNat 32) :=
    networkOctets_quad (and_byte_lt _) (and_byte_lt _) (and_byte_lt _) (and_byte_lt _)
  rw [octets_stored, quad, octetValues, List.map_map]
  conv_rhs => rw [← List.map_id (octets addr)]
  exact List.map_congr_left fun octet _ => by simp

theorem zero_mem_octetValues (addr : BitVec 32) : 0 ∈ octetValues addr ↔ ∃ octet ∈ octets addr, octet = 0 := by
  simp only [octetValues, List.mem_map]
  constructor
  · rintro ⟨octet, member, zero⟩
    exact ⟨octet, member, BitVec.eq_of_toNat_eq zero⟩
  · rintro ⟨octet, member, rfl⟩
    exact ⟨0, member, rfl⟩

theorem decimalPart_eq_zero {val : ℕ} : decimalPart val = .zero ↔ val = 0 := by
  unfold decimalPart
  split
  · next zero => exact iff_of_true rfl zero
  · next nonzero => exact iff_of_false (by rintro ⟨⟩) nonzero

/-- The text of an address is read back unless one of its octets is zero. -/
theorem inetAton_joinDots (addr : BitVec 32) :
    inetAton (joinDots (octetValues addr)) = if ∃ octet ∈ octets addr, octet = 0 then none else some addr := by
  have made := madeOf_joinDots addr
  have nonzero : (∀ part ∈ (octetValues addr).map decimalPart, part ≠ .zero) ↔
      ¬ ∃ octet ∈ octets addr, octet = 0 := by
    rw [← zero_mem_octetValues, List.forall_mem_map]
    simp only [ne_eq, decimalPart_eq_zero]
    exact ⟨fun all member => all 0 member rfl, fun absent val member zero => absent (zero ▸ member)⟩
  split
  · next zero =>
    rw [← Option.not_isSome_iff_eq_none, inetAton_isSome_iff made, nonzero]
    exact fun both => both.1 zero
  · next plain =>
    rw [inetAton_inNotation made (inNotation_joinDots addr) (nonzero.mpr plain), values_joinDots, htonl_octetValues]

end CLite
