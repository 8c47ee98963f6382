import Mathlib.Tactic.Common
import CLite.Model.Setjmp

/-! # A non-local jump returns from `setjmp` a second time

`setjmp` copies its caller's context into the buffer, and `longjmp` puts a context back from it. What happens
between the two is any change of the machine that keeps the buffer's bytes.
-/

namespace CLite

open Machine32

/-- What `setjmp` saves of its caller, in the order of the buffer's words. -/
structure Context where
  ebx : Word
  esi : Word
  edi : Word
  ebp : Word
  esp : Word
  resume : Word
deriving DecidableEq

/-- The context of a call to `setjmp`: the stack pointer is the one after the return. -/
def callerContext (data : Data) : Context :=
  ⟨data.register .ebx, data.register .esi, data.register .edi, data.register .ebp,
    data.register .esp + 4, load data.memory (data.register .esp)⟩

/-- What a caller finds where control comes back to it. -/
def resumedContext (state : State) : Context :=
  ⟨state.data.register .ebx, state.data.register .esi, state.data.register .edi, state.data.register .ebp,
    state.data.register .esp, state.pc⟩

/-- The memory after a context has been written to a buffer. -/
def saveContext (memory : ByteMemory.Memory) (buffer : Word) (context : Context) : ByteMemory.Memory :=
  let memory := store memory buffer context.ebx
  let memory := store memory (buffer + 4) context.esi
  let memory := store memory (buffer + 8) context.edi
  let memory := store memory (buffer + 12) context.ebp
  let memory := store memory (buffer + 16) context.esp
  store memory (buffer + 20) context.resume

/-- The context in a buffer. -/
def storedContext (memory : ByteMemory.Memory) (buffer : Word) : Context :=
  ⟨load memory buffer, load memory (buffer + 4), load memory (buffer + 8), load memory (buffer + 12),
    load memory (buffer + 16), load memory (buffer + 20)⟩

variable {memory other : ByteMemory.Memory} {buffer : Word} {context : Context} {data : Data} {code : Code}
  {place : ℕ → Word}

theorem storedContext_saveContext :
    storedContext (saveContext memory buffer context) buffer = context := by
  simp (disch := bv_omega) only [storedContext, saveContext, load_store_same, load_store_disjoint]

section Buffer

variable (room : buffer.toNat + 24 ≤ 2 ^ 32)
include room

theorem saveContext_outside {query : ℕ}
    (outside : query < buffer.toNat ∨ buffer.toNat + 24 ≤ query) :
    saveContext memory buffer context query = memory query := by
  simp (disch := bv_omega) only [saveContext, store_outside]

theorem storedContext_congr
    (kept : ∀ query, buffer.toNat ≤ query → query < buffer.toNat + 24 → other query = memory query) :
    storedContext other buffer = storedContext memory buffer := by
  have word : ∀ offset : Word, offset.toNat + 4 ≤ 24 →
      load other (buffer + offset) = load memory (buffer + offset) := by
    intro offset inside
    apply load_congr
    intro query lower upper
    exact kept query (by bv_omega) (by bv_omega)
  have first := word 0 (by decide)
  rw [show buffer + 0 = buffer by bv_omega] at first
  rw [storedContext, first, word 4 (by decide), word 8 (by decide), word 12 (by decide), word 16 (by decide),
    word 20 (by decide), storedContext]

variable (argument : load data.memory (data.register .esp + 4) = buffer)
  (apart : buffer.toNat + 24 ≤ (data.register .esp).toNat ∨ (data.register .esp).toNat + 4 ≤ buffer.toNat)
include argument apart

theorem setjmpBody_memory :
    (setjmpBody.foldl Operation.exec data).memory = saveContext data.memory buffer (callerContext data) := by
  -- The return address is read after five words of the buffer have been written.
  have unread : load (store (store (store (store (store data.memory buffer (data.register .ebx))
      (buffer + 4) (data.register .esi)) (buffer + 8) (data.register .edi)) (buffer + 12) (data.register .ebp))
      (buffer + 16) (data.register .esp + 4)) (data.register .esp) =
      load data.memory (data.register .esp) := by
    simp (disch := bv_omega) only [load_store_disjoint]
  subst argument
  simp only [BitVec.ofNat_eq_ofNat] at unread
  simp [setjmpBody, loadFrom, storeTo, saveContext, callerContext, unread]

theorem setjmp_returns (loaded : Loaded code place setjmp) :
    ∃ returned, Reaches code ⟨data, place 0⟩ returned ∧ resumedContext returned = callerContext data ∧
      returned.data.register .eax = 0 ∧
      returned.data.memory = saveContext data.memory buffer (callerContext data) := by
  have saved := setjmpBody_memory room argument apart
  have body := loaded.block 0 setjmpBody ⟨[.transfer .ret], rfl⟩ data
  have last := loaded.transfer 10 rfl (setjmpBody.foldl Operation.exec data) rfl
  refine ⟨_, body.trans last, ?_, ?_, saved⟩
  · have slot : load (saveContext data.memory buffer (callerContext data)) (data.register .esp) =
        load data.memory (data.register .esp) := by
      simp (disch := bv_omega) only [saveContext, load_store_disjoint]
    rw [saved]
    simp [setjmpBody, loadFrom, storeTo, resumedContext, callerContext]
    exact slot
  · simp [setjmpBody, loadFrom, storeTo]

end Buffer

/-- The value `setjmp` returns for a jump with this one. -/
def jumpValue (value : Word) : Word := if value = 0 then 1 else value

theorem longjmp_value (loaded : Loaded code place (longjmp place)) (data : Data) :
    ∃ ready, Reaches code ⟨data, place 0⟩ ⟨ready, place valOk⟩ ∧
      ready.register .edx = load data.memory (data.register .esp + 4) ∧
      ready.register .eax = jumpValue (load data.memory (data.register .esp + 8)) ∧
      ready.memory = data.memory := by
  have arguments := loaded.block 0 longjmpArguments ⟨_, rfl⟩ data
  have branch := loaded.transfer 3 rfl (longjmpArguments.foldl Operation.exec data) rfl
  have tested : (longjmpArguments.foldl Operation.exec data).zero =
      (load data.memory (data.register .esp + 8) == 0) := by
    simp [longjmpArguments, loadFrom]
  by_cases none : load data.memory (data.register .esp + 8) = 0
  · have ones := loaded.operation 4 rfl (longjmpArguments.foldl Operation.exec data)
    rw [Condition.holds, tested, none] at branch
    refine ⟨_, arguments.trans (branch.trans ones), ?_, ?_, ?_⟩
    · simp [longjmpArguments, loadFrom]
    · rw [jumpValue, if_pos none]
      simp
    · simp [longjmpArguments, loadFrom]
  · rw [Condition.holds, tested, beq_false_of_ne none] at branch
    refine ⟨_, arguments.trans branch, ?_, ?_, ?_⟩
    · simp [longjmpArguments, loadFrom]
    · rw [jumpValue, if_neg none]
      simp [longjmpArguments, loadFrom]
    · simp [longjmpArguments, loadFrom]

/-- From `.val_ok` on, the context comes back from the buffer that `edx` points to. -/
theorem longjmp_restores (loaded : Loaded code place (longjmp place)) (ready : Data) :
    ∃ resumed, Reaches code ⟨ready, place valOk⟩ resumed ∧
      resumedContext resumed = storedContext ready.memory (ready.register .edx) ∧
      resumed.data.register .eax = ready.register .eax ∧ resumed.data.memory = ready.memory := by
  have body := loaded.block valOk longjmpRestore ⟨_, rfl⟩ ready
  have last := loaded.transfer 11 rfl (longjmpRestore.foldl Operation.exec ready) rfl
  refine ⟨_, body.trans last, ?_, ?_, ?_⟩
  · simp [longjmpRestore, loadFrom, resumedContext, storedContext]
  · simp [longjmpRestore, loadFrom]
  · simp [longjmpRestore, loadFrom]

/-- After `setjmp` has returned, whatever the program does that keeps the buffer's bytes, a later `longjmp`
comes back where `setjmp` returned: with the stack pointer and the registers a callee must keep as they were
there, with the jump's value, or one for zero, as the result, and with memory as the jump found it. -/
theorem longjmp_returns_from_setjmp (code : Code) (setjmpPlace longjmpPlace : ℕ → Word) (call : Data)
    (buffer : Word) (setjmpLoaded : Loaded code setjmpPlace setjmp)
    (longjmpLoaded : Loaded code longjmpPlace (longjmp longjmpPlace))
    (argument : load call.memory (call.register .esp + 4) = buffer)
    (room : buffer.toNat + jmpBufSize ≤ 2 ^ 32)
    (apart : buffer.toNat + jmpBufSize ≤ (call.register .esp).toNat ∨
      (call.register .esp).toNat + 4 ≤ buffer.toNat) :
    ∃ returned, Reaches code ⟨call, setjmpPlace 0⟩ returned ∧ returned.data.register .eax = 0 ∧
      resumedContext returned = callerContext call ∧
      (∀ query, query < buffer.toNat ∨ buffer.toNat + jmpBufSize ≤ query →
        returned.data.memory query = call.memory query) ∧
      ∀ later : Data,
        (∀ query, buffer.toNat ≤ query → query < buffer.toNat + jmpBufSize →
          later.memory query = returned.data.memory query) →
        load later.memory (later.register .esp + 4) = buffer →
        ∃ again, Reaches code ⟨later, longjmpPlace 0⟩ again ∧
          again.data.register .eax = jumpValue (load later.memory (later.register .esp + 8)) ∧
          resumedContext again = resumedContext returned ∧ again.data.memory = later.memory := by
  obtain ⟨returned, ran, same, zero, saved⟩ := setjmp_returns room argument apart setjmpLoaded
  refine ⟨returned, ran, zero, same, ?_, ?_⟩
  · intro query outside
    rw [saved, saveContext_outside room outside]
  · intro later kept target
    have held : storedContext later.memory buffer = callerContext call := by
      rw [storedContext_congr room kept, saved, storedContext_saveContext]
    obtain ⟨ready, prepared, edx, eax, memory⟩ := longjmp_value longjmpLoaded later
    obtain ⟨again, restored, context, value, unchanged⟩ := longjmp_restores longjmpLoaded ready
    refine ⟨again, prepared.trans restored, value.trans eax, ?_, unchanged.trans memory⟩
    rw [context, edx, memory, target, held, same]

/-- A caller at `0x1000` with its buffer at `0x2000`, on a stack at `0x3000`. -/
def sampleCall : Data where
  register := Function.update (fun _ => 7) .esp 0x3000
  zero := false
  sign := false
  overflow := false
  memory := store (store (fun _ => 0) 0x3000 0x1000) 0x3004 0x2000

/-- Both routines, one after the other from address zero. -/
def sampleCode : Code := linear 0 (setjmp ++ longjmp fun i => BitVec.ofNat 32 (0 + (setjmp.length + i)))

theorem longjmp_returns_from_setjmp_sample :
    ∃ returned, Reaches sampleCode ⟨sampleCall, 0⟩ returned ∧
      resumedContext returned = ⟨7, 7, 7, 7, 0x3004, 0x1000⟩ ∧
      ∀ later : Data, (∀ query, 0x2000 ≤ query → query < 0x2000 + jmpBufSize →
          later.memory query = returned.data.memory query) →
        load later.memory (later.register .esp + 4) = 0x2000 →
        ∃ again, Reaches sampleCode ⟨later, 11⟩ again ∧
          resumedContext again = ⟨7, 7, 7, 7, 0x3004, 0x1000⟩ := by
  obtain ⟨setjmpLoaded, longjmpLoaded⟩ := (loaded_linear 0
    (setjmp ++ longjmp fun i => BitVec.ofNat 32 (0 + (setjmp.length + i))) (by decide)).append
  obtain ⟨returned, ran, -, context, -, jumps⟩ := longjmp_returns_from_setjmp sampleCode _ _ sampleCall 0x2000
    setjmpLoaded longjmpLoaded (by decide) (by decide) (by decide)
  have same : callerContext sampleCall = ⟨7, 7, 7, 7, 0x3004, 0x1000⟩ := by decide
  refine ⟨returned, ran, context.trans same, ?_⟩
  intro later kept target
  obtain ⟨again, jumped, -, resumed, -⟩ := jumps later kept target
  exact ⟨again, jumped, resumed.trans (context.trans same)⟩

end CLite
