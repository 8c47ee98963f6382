import Mathlib.Logic.Relation
import Mathlib.Logic.Function.Basic
import CLite.Lib.ByteMemory

/-! # A 32-bit register machine with a downward stack

Eight word registers, the flags that conditional jumps read, and flat byte memory. An instruction
either falls through to the one after it or transfers control. Code is any map from an address to
the instruction there and the address after it, so instruction lengths and everything outside the
routines under study stay arbitrary. A word that would cross the top of the address space is not
given a meaning of its own; results about memory bound their addresses away from it.
-/

namespace Machine32

open ByteMemory

abbrev Word := BitVec 32

inductive Register
  | eax | ecx | edx | ebx | esp | ebp | esi | edi
deriving DecidableEq, Repr

/-- Registers, the zero, sign and overflow flags, and memory. -/
structure Data where
  register : Register → Word
  zero : Bool
  sign : Bool
  overflow : Bool
  memory : Memory

/-! ## Words in memory -/

/-- The word at an address. -/
def load (memory : Memory) (address : Word) : Word :=
  BitVec.ofNat 32 (read32 memory address.toNat)

/-- The memory after a word has been stored. -/
def store (memory : Memory) (address value : Word) : Memory :=
  write32 memory address.toNat value.toNat

@[simp] theorem load_store_same (memory : Memory) (address value : Word) :
    load (store memory address value) address = value := by
  apply BitVec.eq_of_toNat_eq
  rw [load, store, read32_write32_same, BitVec.toNat_ofNat, Nat.mod_mod, Nat.mod_eq_of_lt value.isLt]

theorem load_store_disjoint {memory : Memory} {address other value : Word}
    (disjoint : other.toNat + 4 ≤ address.toNat ∨ address.toNat + 4 ≤ other.toNat) :
    load (store memory address value) other = load memory other := by
  rw [load, store, read32_write32_disjoint _ _ _ _ disjoint, load]

theorem store_outside {memory : Memory} {address value : Word} {query : ℕ}
    (outside : query < address.toNat ∨ address.toNat + 4 ≤ query) :
    store memory address value query = memory query :=
  write32_outside _ _ _ _ outside

/-- A word depends on its own four bytes only. -/
theorem load_congr {first second : Memory} {address : Word}
    (agree : ∀ query, address.toNat ≤ query → query < address.toNat + 4 → first query = second query) :
    load first address = load second address := by
  rw [load, read32_congr agree, load]

/-- The words stand in memory one after another, from a natural address on. -/
def Words (memory : Memory) (address : ℕ) (words : List Word) : Prop :=
  ∀ i word, words[i]? = some word → read32 memory (address + 4 * i) = word.toNat

theorem Words.load {memory : Memory} {address : ℕ} {words : List Word} (stored : Words memory address words)
    {i : ℕ} {word place : Word} (found : words[i]? = some word) (same : place.toNat = address + 4 * i) :
    load memory place = word := by
  apply BitVec.eq_of_toNat_eq
  rw [Machine32.load, same, stored i word found, BitVec.toNat_ofNat, Nat.mod_eq_of_lt word.isLt]

theorem Words.append_right {memory : Memory} {address : ℕ} {first second : List Word}
    (stored : Words memory address (first ++ second)) :
    Words memory (address + 4 * first.length) second := by
  intro i word found
  have later := stored (first.length + i) word
    (by rw [List.getElem?_append_right (Nat.le_add_right _ _), Nat.add_sub_cancel_left, found])
  rwa [Nat.mul_add, ← Nat.add_assoc] at later

theorem Words.append_left {memory : Memory} {address : ℕ} {first second : List Word}
    (stored : Words memory address (first ++ second)) : Words memory address first := by
  intro i word found
  have inside := (List.getElem?_eq_some_iff.mp found).1
  exact stored i word (by rw [List.getElem?_append_left inside, found])

theorem Words.congr {first second : Memory} {address : ℕ} {words : List Word}
    (stored : Words first address words)
    (agree : ∀ query, address ≤ query → query < address + 4 * words.length → first query = second query) :
    Words second address words := by
  intro i word found
  have inside := (List.getElem?_eq_some_iff.mp found).1
  rw [← stored i word found]
  exact read32_congr fun query lower upper => (agree query (by omega) (by omega)).symm

/-! ## Instructions -/

/-- `[base + index * scale + displacement]`. -/
structure Address where
  base : Option Register
  index : Option (Register × Word)
  displacement : Word

/-- `[base + displacement]`. -/
def Address.based (base : Register) (displacement : Word) : Address := ⟨some base, none, displacement⟩

/-- `[displacement]`. -/
def Address.absolute (displacement : Word) : Address := ⟨none, none, displacement⟩

inductive Place
  | register (name : Register)
  | memory (address : Address)

inductive Operand
  | place (place : Place)
  | immediate (value : Word)

/-- The instructions that fall through. -/
inductive Operation
  | mov (target : Place) (source : Operand)
  | lea (target : Register) (source : Address)
  | xor (target source : Register)
  | test (first second : Register)
  | push (source : Operand)

inductive Condition
  | nonzero
  | lessOrEqual

/-- The instructions that set the next address themselves. -/
inductive Transfer
  | jmp (target : Operand)
  | jcc (condition : Condition) (target : Word)
  | call (target : Word)
  | ret
  | hlt

inductive Instruction
  | operation (operation : Operation)
  | transfer (transfer : Transfer)

/-! ## Execution -/

def Data.set (data : Data) (name : Register) (value : Word) : Data :=
  { data with register := Function.update data.register name value }

def Data.store (data : Data) (address value : Word) : Data :=
  { data with memory := Machine32.store data.memory address value }

/-- The flags after a bitwise operation with this result. -/
def Data.flags (data : Data) (result : Word) : Data :=
  { data with zero := result == 0, sign := result.msb, overflow := false }

/-- The effective address of an operand. -/
def Data.effective (data : Data) (address : Address) : Word :=
  (address.base.elim 0 data.register) +
    (address.index.elim 0 fun scaled => data.register scaled.1 * scaled.2) + address.displacement

def Data.read (data : Data) : Place → Word
  | .register name => data.register name
  | .memory address => load data.memory (data.effective address)

def Data.write (data : Data) (value : Word) : Place → Data
  | .register name => data.set name value
  | .memory address => data.store (data.effective address) value

def Data.value (data : Data) : Operand → Word
  | .place place => data.read place
  | .immediate value => value

/-- The stack grows downwards, by one word. -/
def Data.push (data : Data) (value : Word) : Data :=
  (data.set .esp (data.register .esp - 4)).store (data.register .esp - 4) value

theorem store_register (data : Data) (address value : Word) :
    (data.store address value).register = data.register := rfl

theorem push_memory_outside {data : Data} {value : Word} {query : ℕ} (room : 4 ≤ (data.register .esp).toNat)
    (outside : query + 4 < (data.register .esp).toNat ∨ (data.register .esp).toNat ≤ query) :
    (data.push value).memory query = data.memory query := by
  apply store_outside
  bv_omega

theorem push_register_esp (data : Data) (value : Word) :
    (data.push value).register .esp = data.register .esp - 4 := by
  simp [Data.push, Data.set, Data.store]

/-- A pushed word stands below the words that were on top of the stack. -/
theorem words_push {data : Data} {value : Word} {words : List Word} (room : 4 ≤ (data.register .esp).toNat)
    (stored : Words data.memory (data.register .esp).toNat words) :
    Words (data.push value).memory ((data.push value).register .esp).toNat (value :: words) := by
  have lower : (data.register .esp - 4).toNat + 4 = (data.register .esp).toNat := by bv_omega
  rw [push_register_esp]
  intro i word found
  cases i with
  | zero =>
    cases Option.some.inj found
    have top := load_store_same data.memory (data.register .esp - 4) value
    rw [load] at top
    have same := congrArg BitVec.toNat top
    rwa [BitVec.toNat_ofNat, Nat.mod_eq_of_lt (read32_lt _ _)] at same
  | succ i =>
    rw [List.getElem?_cons_succ] at found
    rw [← stored i word found, ← lower, Nat.add_assoc, Nat.add_comm 4, ← Nat.mul_succ]
    apply read32_congr
    intro query above below
    apply push_memory_outside room
    omega

def Operation.exec (data : Data) : Operation → Data
  | .mov target source => data.write (data.value source) target
  | .lea target source => data.set target (data.effective source)
  | .xor target source =>
    (data.set target (data.register target ^^^ data.register source)).flags
      (data.register target ^^^ data.register source)
  | .test first second => data.flags (data.register first &&& data.register second)
  | .push source => data.push (data.value source)

def Condition.holds (data : Data) : Condition → Bool
  | .nonzero => !data.zero
  | .lessOrEqual => data.zero || (data.sign != data.overflow)

structure State where
  data : Data
  pc : Word

/-- A control transfer, with the address of the instruction after it. -/
def Transfer.exec (data : Data) (next : Word) : Transfer → Option State
  | .jmp target => some ⟨data, data.value target⟩
  | .jcc condition target => some ⟨data, if condition.holds data then target else next⟩
  | .call target => some ⟨data.push next, target⟩
  | .ret => some ⟨data.set .esp (data.register .esp + 4), load data.memory (data.register .esp)⟩
  | .hlt => none

abbrev Code := Word → Option (Instruction × Word)

/-- One instruction; nothing follows a halt or an address without code. -/
def step (code : Code) (state : State) : Option State :=
  match code state.pc with
  | some (.operation operation, next) => some ⟨operation.exec state.data, next⟩
  | some (.transfer transfer, next) => transfer.exec state.data next
  | none => none

/-- Finitely many instructions lead from one state to another. -/
def Reaches (code : Code) : State → State → Prop :=
  Relation.ReflTransGen fun source target => step code source = some target

theorem Reaches.trans {code : Code} {first second third : State} (head : Reaches code first second)
    (tail : Reaches code second third) : Reaches code first third :=
  Relation.ReflTransGen.trans head tail

/-! ## Routines in place -/

/-- The instructions of a routine stand in the code, each followed by the next one's address. -/
def Loaded (code : Code) (place : ℕ → Word) (routine : List Instruction) : Prop :=
  ∀ i instruction, routine[i]? = some instruction → code (place i) = some (instruction, place (i + 1))

variable {code : Code} {place : ℕ → Word} {routine : List Instruction}

theorem Loaded.operation (loaded : Loaded code place routine) (i : ℕ) {operation : Operation}
    (found : routine[i]? = some (.operation operation)) (data : Data) :
    Reaches code ⟨data, place i⟩ ⟨operation.exec data, place (i + 1)⟩ := by
  apply Relation.ReflTransGen.single
  rw [step, loaded i _ found]

theorem Loaded.transfer (loaded : Loaded code place routine) (i : ℕ) {transfer : Transfer}
    (found : routine[i]? = some (.transfer transfer)) (data : Data) {target : State}
    (ran : transfer.exec data (place (i + 1)) = some target) :
    Reaches code ⟨data, place i⟩ target := by
  apply Relation.ReflTransGen.single
  rw [step, loaded i _ found]
  exact ran

/-- A straight line of operations runs to its end. -/
theorem Loaded.block (loaded : Loaded code place routine) (i : ℕ) (operations : List Operation)
    (here : operations.map .operation <+: routine.drop i) (data : Data) :
    Reaches code ⟨data, place i⟩ ⟨operations.foldl Operation.exec data, place (i + operations.length)⟩ := by
  induction operations generalizing i data with
  | nil => exact Relation.ReflTransGen.refl
  | cons operation rest ih =>
    have found : routine[i]? = some (.operation operation) := by
      obtain ⟨after, split⟩ := here
      rw [← List.head?_drop, ← split]
      rfl
    have later : rest.map .operation <+: routine.drop (i + 1) := by
      obtain ⟨after, split⟩ := here
      refine ⟨after, ?_⟩
      rw [← List.tail_drop, ← split]
      rfl
    have tail := ih (i + 1) later (operation.exec data)
    rw [Nat.add_assoc, Nat.add_comm 1] at tail
    exact (loaded.operation i found data).trans tail

/-- Code with one routine, an address for each instruction. -/
def linear (base : ℕ) (routine : List Instruction) : Code := fun address =>
  if base ≤ address.toNat then (routine[address.toNat - base]?).map (·, address + 1) else none

theorem loaded_linear (base : ℕ) (routine : List Instruction) (room : base + routine.length < 2 ^ 32) :
    Loaded (linear base routine) (fun i => BitVec.ofNat 32 (base + i)) routine := by
  intro i instruction found
  have inside := (List.getElem?_eq_some_iff.mp found).1
  have place : (BitVec.ofNat 32 (base + i)).toNat = base + i := by
    rw [BitVec.toNat_ofNat, Nat.mod_eq_of_lt (by omega)]
  rw [linear, place, if_pos (Nat.le_add_right _ _), Nat.add_sub_cancel_left, found, Option.map_some]
  congr 2
  bv_omega

theorem Loaded.append {first second : List Instruction} (loaded : Loaded code place (first ++ second)) :
    Loaded code place first ∧ Loaded code (fun i => place (first.length + i)) second := by
  refine ⟨?_, ?_⟩
  · intro i instruction found
    have inside := (List.getElem?_eq_some_iff.mp found).1
    exact loaded i instruction (by rw [List.getElem?_append_left inside, found])
  · intro i instruction found
    exact loaded (first.length + i) instruction
      (by rw [List.getElem?_append_right (Nat.le_add_right _ _), Nat.add_sub_cancel_left, found])

/-! ## Reading registers and memory of an updated machine -/

attribute [simp] Data.set Data.store Data.flags Data.push Data.read Data.write Data.value Data.effective
  Operation.exec Transfer.exec Condition.holds Address.based Address.absolute

end Machine32
